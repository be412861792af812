import Mathlib.Data.List.Chain
import NameGlob.Proofs.Rendering.RegexMatching

/-!
# Bracket lists in regular expressions

A bracket list of a pattern becomes a list of the regular expression, whatever the pattern holds. The text of
that list is never empty. A range of it ascends as the range of the pattern does, but an invalid byte is
written as a replacement character, and that may lie below the beginning of its range. A `[` is written as it
is, and a syntax with classes such as `[:digit:]` reads more into it where a `:` or `=` comes next; this is so
exactly where the members of the pattern stand in this order. A `.` is escaped and never comes next.
-/

namespace NameGlob

namespace Utf8

/-- A character as it is read back once it is written. -/
def written (c : CodePoint) : CodePoint :=
  if IsCodePoint c then c else replacement

variable {c d : CodePoint}

theorem isCodePoint_written (c : CodePoint) : IsCodePoint (written c) := by
  unfold written
  split
  · assumption
  · decide

theorem encode_written (c : CodePoint) : encode (written c) = encode c := by
  unfold written
  split
  · rfl
  · rename_i hc
    have hreplaced : ¬ (0 ≤ c ∧ c ≤ maxCodePoint) := hc
    simp only [encode, if_neg hreplaced]
    rfl

/-- What is written is read back, with the replacement character for what is no code point. -/
theorem codePoints_encodeAll_eq_map (cs : List CodePoint) : codePoints (encodeAll cs) = cs.map written := by
  have hencode : encodeAll cs = encodeAll (cs.map written) := by
    rw [encodeAll, encodeAll, List.flatMap_map]
    exact List.flatMap_congr fun c _ => (encode_written c).symm
  rw [hencode, codePoints_encodeAll (List.forall_mem_map.mpr fun c _ => isCodePoint_written c)]

theorem written_of_isCodePoint (h : IsCodePoint c) : written c = c :=
  if_pos h

/-- Only the replacement character is read back from several characters. -/
theorem written_eq_iff (hd : IsCodePoint d) (hne : d ≠ replacement) : written c = d ↔ c = d := by
  constructor
  · intro h
    unfold written at h
    split at h
    · exact h
    · exact absurd h.symm hne
  · rintro rfl
    exact written_of_isCodePoint hd

end Utf8

namespace Member

/-- The member with its characters as they are read back. -/
def written : Member → Member
  | .single c => .single (Utf8.written c)
  | .range lo hi => .range (Utf8.written lo) (Utf8.written hi)

/-- The character with which a member begins. -/
def first : Member → CodePoint
  | .single c => c
  | .range lo _ => lo

/-- The character with which a member ends. -/
def last : Member → CodePoint
  | .single c => c
  | .range _ hi => hi

/-- Somewhere in a list a member that is or ends in `c` stands directly before one that is or begins with
`d`. -/
def Adjoin (members : List Member) (c d : CodePoint) : Prop :=
  ∃ m m', [m, m'] <:+: members ∧ m.last = c ∧ m'.first = d

theorem first_written (m : Member) : m.written.first = Utf8.written m.first := by
  cases m <;> rfl

theorem last_written (m : Member) : m.written.last = Utf8.written m.last := by
  cases m <;> rfl

end Member

namespace Item

/-- The item with its characters as they are read back. -/
def written : Item → Item
  | .literal c => .literal (Utf8.written c)
  | .oneOf members => .oneOf (members.map Member.written)
  | i => i

/-- The members of a bracket list. -/
def members? : Item → Option (List Member)
  | .oneOf members => some members
  | _ => none

theorem members?_written (i : Item) : i.written.members? = i.members?.map (·.map Member.written) := by
  cases i <;> rfl

theorem members?_eq_some_iff {i : Item} {members : List Member} :
    i.members? = some members ↔ i = .oneOf members := by
  cases i <;> simp [members?]

end Item

section Neighbours

variable {α β : Type} {x y : β} {l : List α}

theorem isChain_iff_not_adjacent {l : List β} :
    l.IsChain (fun a b => ¬ (a = x ∧ b = y)) ↔ ¬ [x, y] <:+: l := by
  rw [List.isChain_iff_forall_rel_of_append_cons_cons]
  constructor
  · rintro h ⟨front, back, hsplit⟩
    exact h (by rw [← hsplit, List.append_assoc]; rfl) ⟨rfl, rfl⟩
  · rintro h a b front back rfl ⟨rfl, rfl⟩
    exact h ⟨front, back, by rw [List.append_assoc]; rfl⟩

/-- Two neighbours in a sequence of blocks are neighbours in a block, or meet where a block ends and the next
one begins. -/
theorem pair_infix_flatMap_iff {f : α → List β} (hf : ∀ a ∈ l, f a ≠ []) :
    [x, y] <:+: l.flatMap f ↔
      (∃ a ∈ l, [x, y] <:+: f a) ∨
        ∃ a b, [a, b] <:+: l ∧ (f a).getLast? = some x ∧ (f b).head? = some y := by
  have hblocks : [] ∉ l.map f := by
    intro hmem
    obtain ⟨a, ha, hnil⟩ := List.mem_map.mp hmem
    exact hf a ha hnil
  rw [← not_iff_not, ← isChain_iff_not_adjacent, List.flatMap_def, List.isChain_flatten hblocks, not_or,
    List.forall_mem_map, List.isChain_map, List.isChain_iff_forall_rel_of_append_cons_cons]
  refine and_congr ?_ ?_
  · rw [not_exists]
    exact forall_congr' fun a => by rw [isChain_iff_not_adjacent, not_and]
  · constructor
    · rintro h ⟨a, b, ⟨front, back, rfl⟩, hlast, hhead⟩
      exact h (List.append_assoc front [a, b] back) x hlast y hhead ⟨rfl, rfl⟩
    · rintro h a b front back rfl _ hlast _ hhead ⟨rfl, rfl⟩
      exact h ⟨a, b, ⟨front, back, List.append_assoc front [a, b] back⟩, hlast, hhead⟩

end Neighbours

namespace Rendering.Regex

/-- The texts of the lists in a regular expression, each up to the first plain `]` behind its `[`. The tokens of
the list that is open, if one is, come with the latest first. -/
def listTexts (list? : Option (List Token)) (ts : List Token) : List (List Token) :=
  match list?, ts with
  | _, [] => []
  | none, t :: rest => listTexts (if t = ⟨0x5B, false⟩ then some [] else none) rest
  | some list, t :: rest =>
    if t = ⟨0x5D, false⟩ then list.reverse :: listTexts none rest else listTexts (some (t :: list)) rest
termination_by structural ts

/-- The text of a list has something to say, its ranges ascend, and no `[` in it seems to begin a class, an
equivalence class or a collating element. -/
structure ValidList (text : List Token) : Prop where
  ne_nil : text ≠ []
  ascending : ∀ lo hi, .range lo hi ∈ listMembers (hyphens text) → lo ≤ hi
  no_class : ∀ d ∈ Utf8.ascii ":=.", ¬ [⟨0x5B, false⟩, ⟨d, false⟩] <:+: text

section Written

variable {c d : CodePoint}

theorem written_special_iff (h : d ∈ special) : Utf8.written c = d ↔ c = d := by
  have hspecial : ∀ d ∈ special, Utf8.IsCodePoint d ∧ d ≠ Utf8.replacement := by decide
  exact Utf8.written_eq_iff (hspecial d h).1 (hspecial d h).2

theorem contains_special_written (c : CodePoint) : special.contains (Utf8.written c) = special.contains c := by
  rw [Bool.eq_iff_iff, List.contains_iff_mem, List.contains_iff_mem]
  constructor
  · intro h
    rwa [(written_special_iff h).mp rfl]
  · intro h
    rwa [(written_special_iff h).mpr rfl]

theorem char_written (c : CodePoint) : char (Utf8.written c) = (char c).map Utf8.written := by
  unfold char
  rw [contains_special_written]
  split <;> rfl

theorem listChar_written (c : CodePoint) : listChar (Utf8.written c) = (listChar c).map Utf8.written := by
  have hmarks : ∀ d ∈ [0x5B, 0x5D, 0x2D], Utf8.IsCodePoint d ∧ d ≠ Utf8.replacement := by decide
  have hiff : ∀ d ∈ [0x5B, 0x5D, 0x2D], (Utf8.written c = d ↔ c = d) :=
    fun d hd => Utf8.written_eq_iff (hmarks d hd).1 (hmarks d hd).2
  unfold listChar
  simp only [hiff 0x5B (by decide), hiff 0x5D (by decide), hiff 0x2D (by decide)]
  split
  · rfl
  · split
    · rfl
    · split
      · rfl
      · exact char_written c

theorem member_written (m : Member) : member m.written = (member m).map Utf8.written := by
  cases m with
  | single c => exact listChar_written c
  | range lo hi =>
    rw [Member.written, member, member, listChar_written, listChar_written, List.map_append, List.map_cons]
    rfl

theorem item_written (i : Item) : item i.written = (item i).map Utf8.written := by
  cases i with
  | literal c => exact char_written c
  | anyOne => rfl
  | anySequence => rfl
  | oneOf members =>
    have hmembers : (members.map Member.written).flatMap member = (members.flatMap member).map Utf8.written := by
      rw [List.flatMap_map, List.map_flatMap]
      exact List.flatMap_congr fun m _ => member_written m
    rw [Item.written, item, item, hmembers, List.map_append, List.map_cons]
    rfl

/-- A regular expression is read back as that of the items with their characters as they are read back. -/
theorem framed_written (atStart atEnd : Bool) (items : List Item) :
    framed atStart atEnd (items.map Item.written) = (framed atStart atEnd items).map Utf8.written := by
  have hitems : (items.map Item.written).flatMap item = (items.flatMap item).map Utf8.written := by
    rw [List.flatMap_map, List.map_flatMap]
    exact List.flatMap_congr fun i _ => item_written i
  rw [framed, framed, hitems, List.map_append, List.map_append]
  cases atStart <;> cases atEnd <;> rfl

end Written

section Texts

variable {ts rest : List Token} {items : List Item}

theorem listTexts_close {before : List Token} (h : ∀ t ∈ ts, t ≠ ⟨0x5D, false⟩) (rest : List Token) :
    listTexts (some before) (ts ++ ⟨0x5D, false⟩ :: rest) = (before.reverse ++ ts) :: listTexts none rest := by
  induction ts generalizing before with
  | nil => rw [List.nil_append, listTexts, if_pos rfl, List.append_nil]
  | cons t ts ih =>
    rw [List.forall_mem_cons] at h
    rw [List.cons_append, listTexts, if_neg h.1, ih h.2, List.reverse_cons, List.append_assoc,
      List.singleton_append]

theorem listTexts_other {t : Token} (h : t ≠ ⟨0x5B, false⟩) (rest : List Token) :
    listTexts none (t :: rest) = listTexts none rest := by
  rw [listTexts, if_neg h]

theorem listTexts_item (i : Item) (rest : List Token) :
    listTexts none (itemTokens i ++ rest) =
      (i.members?.map (·.flatMap memberSpelling)).toList ++ listTexts none rest := by
  cases i with
  | literal c => exact listTexts_other (charToken_ne (by decide)) rest
  | anyOne => rfl
  | anySequence => rfl
  | oneOf members =>
    have hclose : ∀ t ∈ members.flatMap memberSpelling, t ≠ ⟨0x5D, false⟩ := by
      rw [List.forall_mem_flatMap]
      exact fun m _ => memberSpelling_ne m
    rw [itemTokens, List.cons_append, List.cons_append, listTexts, if_pos rfl, List.append_assoc,
      List.singleton_append, listTexts_close hclose]
    rfl

theorem listTexts_flatMap (items : List Item) (rest : List Token) :
    listTexts none (items.flatMap itemTokens ++ rest) =
      (items.filterMap Item.members?).map (·.flatMap memberSpelling) ++ listTexts none rest := by
  induction items with
  | nil => rfl
  | cons i items ih =>
    rw [List.flatMap_cons, List.append_assoc, listTexts_item, ih]
    cases i <;> rfl

/-- Anchors are no lists. -/
theorem listTexts_framed (atStart atEnd : Bool) (items : List Item) :
    listTexts none (tokens (framed atStart atEnd items)) =
      (items.filterMap Item.members?).map (·.flatMap memberSpelling) := by
  have hend : listTexts none (if atEnd then [⟨0x24, false⟩] else []) = [] := by
    cases atEnd <;> rfl
  have hbody := listTexts_flatMap items (if atEnd then [⟨0x24, false⟩] else [])
  rw [hend, List.append_nil] at hbody
  rw [tokens_framed, ← hbody]
  cases atStart with
  | false => rfl
  | true => exact listTexts_other (by decide) _

/-- What is left out beside an anchor is no list. -/
theorem exists_framed_lists (items : List Item) :
    ∃ atStart atEnd middle, codePoints items = framed atStart atEnd middle ∧
      middle.filterMap Item.members? = items.filterMap Item.members? := by
  have hgap : ∀ anchored, (gap anchored).filterMap Item.members? = [] := by decide
  obtain ⟨atStart, atEnd, middle, hcodePoints, hitems | ⟨rfl, rfl, rfl, rfl⟩⟩ := exists_framed items
  · refine ⟨atStart, atEnd, middle, hcodePoints, ?_⟩
    rw [hitems, List.filterMap_append, List.filterMap_append, hgap, hgap, List.nil_append, List.append_nil]
  · exact ⟨false, false, [], hcodePoints, rfl⟩

/-- The tokens of a bracket list between its brackets. -/
def listSpelling (members : List Member) : List Token :=
  members.flatMap fun m => memberSpelling m.written

/-- The lists of a regular expression are those of the items, in their order. -/
theorem listTexts_codePoints (items : List Item) :
    listTexts none (tokens (Utf8.codePoints (Utf8.encodeAll (codePoints items)))) =
      (items.filterMap Item.members?).map listSpelling := by
  obtain ⟨atStart, atEnd, middle, hcodePoints, hlists⟩ := exists_framed_lists items
  have hwritten : (middle.map Item.written).filterMap Item.members? =
      (middle.filterMap Item.members?).map (·.map Member.written) := by
    rw [List.filterMap_map, List.map_filterMap]
    exact List.filterMap_congr fun i _ => Item.members?_written i
  rw [Utf8.codePoints_encodeAll_eq_map, hcodePoints, ← framed_written, listTexts_framed, hwritten, hlists,
    List.map_map]
  refine List.map_congr_left fun members _ => ?_
  rw [Function.comp_apply, List.flatMap_map, listSpelling]

end Texts

section Members

variable {members : List Member} {m : Member} {c d : CodePoint}

theorem listMembers_listSpelling (members : List Member) :
    listMembers (hyphens (listSpelling members)) = members.map Member.written := by
  rw [listSpelling, ← List.flatMap_map, hyphens_flatMap, listMembers_flatMap]

theorem listToken_eq_iff : listToken c = ⟨d, false⟩ ↔ c = d ∧ listToken d = ⟨d, false⟩ := by
  constructor
  · intro h
    obtain rfl : c = d := by rw [← listToken_char c, h]
    exact ⟨rfl, h⟩
  · rintro ⟨rfl, h⟩
    exact h

theorem spelling_ne_nil (c : CodePoint) : spelling c ≠ [] := by
  unfold spelling
  split <;> exact List.cons_ne_nil _ _

theorem head?_spelling : (spelling c).head? = some ⟨d, false⟩ ↔ listToken c = ⟨d, false⟩ := by
  unfold spelling
  split
  · rename_i hhyphen
    subst hhyphen
    exact iff_of_false (by simp) (by rw [show listToken 0x2D = ⟨0x2D, true⟩ by decide]; simp)
  · simp

/-- A plain `[` in the tokens of a character is all of them. -/
theorem spelling_of_open_mem (h : ⟨0x5B, false⟩ ∈ spelling c) :
    c = 0x5B ∧ spelling c = [⟨0x5B, false⟩] := by
  unfold spelling at h ⊢
  split at h
  · exact absurd h (by decide)
  · rename_i hhyphen
    have htoken := (List.mem_singleton.mp h).symm
    rw [if_neg hhyphen, htoken]
    exact ⟨(listToken_eq_iff.mp htoken).1, rfl⟩

theorem getLast?_spelling : (spelling c).getLast? = some ⟨0x5B, false⟩ ↔ c = 0x5B := by
  constructor
  · intro h
    exact (spelling_of_open_mem (List.mem_of_getLast? h)).1
  · rintro rfl
    rfl

theorem memberSpelling_ne_nil (m : Member) : memberSpelling m ≠ [] := by
  cases m with
  | single c => exact spelling_ne_nil c
  | range lo hi => exact List.append_ne_nil_of_left_ne_nil (spelling_ne_nil lo) _

theorem head?_memberSpelling :
    (memberSpelling m).head? = some ⟨d, false⟩ ↔ listToken m.first = ⟨d, false⟩ := by
  cases m with
  | single c => exact head?_spelling
  | range lo hi =>
    rw [memberSpelling, List.head?_append_of_ne_nil _ (spelling_ne_nil lo)]
    exact head?_spelling

theorem getLast?_memberSpelling : (memberSpelling m).getLast? = some ⟨0x5B, false⟩ ↔ m.last = 0x5B := by
  cases m with
  | single c => exact getLast?_spelling
  | range lo hi =>
    have hlast : (memberSpelling (.range lo hi)).getLast? = (spelling hi).getLast? := by
      obtain ⟨t, ts, hspelling⟩ := List.exists_cons_of_ne_nil (spelling_ne_nil hi)
      rw [memberSpelling, hspelling, List.getLast?_append_cons, List.getLast?_cons_cons]
    rw [hlast]
    exact getLast?_spelling

theorem not_open_infix_spelling (c d : CodePoint) : ¬ [⟨0x5B, false⟩, ⟨d, false⟩] <:+: spelling c := by
  intro h
  have hspelling := (spelling_of_open_mem (h.subset List.mem_cons_self)).2
  have hlength := h.length_le
  rw [hspelling] at hlength
  exact Nat.not_succ_le_self 1 hlength

/-- Within a member only the hyphen of a range comes directly behind a `[`. -/
theorem not_open_infix_memberSpelling (hd : d ≠ 0x2D) (m : Member) :
    ¬ [⟨0x5B, false⟩, ⟨d, false⟩] <:+: memberSpelling m := by
  cases m with
  | single c => exact not_open_infix_spelling c d
  | range lo hi =>
    rw [memberSpelling, ← isChain_iff_not_adjacent, List.isChain_append, List.isChain_cons]
    refine ⟨isChain_iff_not_adjacent.mpr (not_open_infix_spelling lo d),
      ⟨fun _ _ h => absurd h.1 (by decide), isChain_iff_not_adjacent.mpr (not_open_infix_spelling hi d)⟩, ?_⟩
    rintro x - y hy ⟨-, rfl⟩
    exact hd (Token.mk.inj (Option.some.inj hy)).1.symm

/-- What comes directly behind a `[` in a list is a plain character that begins the next member. -/
theorem open_infix_iff (hd : Utf8.IsCodePoint d) (hne : d ≠ Utf8.replacement) (hhyphen : d ≠ 0x2D) :
    [⟨0x5B, false⟩, ⟨d, false⟩] <:+: listSpelling members ↔
      listToken d = ⟨d, false⟩ ∧ Member.Adjoin members 0x5B d := by
  have hlast : ∀ m : Member,
      (memberSpelling m.written).getLast? = some ⟨0x5B, false⟩ ↔ m.last = 0x5B := by
    intro m
    rw [getLast?_memberSpelling, Member.last_written]
    exact Utf8.written_eq_iff (by decide) (by decide)
  have hfirst : ∀ m : Member, (memberSpelling m.written).head? = some ⟨d, false⟩ ↔
      m.first = d ∧ listToken d = ⟨d, false⟩ := by
    intro m
    rw [head?_memberSpelling, listToken_eq_iff, Member.first_written, Utf8.written_eq_iff hd hne]
  rw [listSpelling, pair_infix_flatMap_iff fun m _ => memberSpelling_ne_nil m.written, or_iff_right]
  · constructor
    · rintro ⟨m, m', hinfix, hm, hm'⟩
      obtain ⟨hchar, hplain⟩ := (hfirst m').mp hm'
      exact ⟨hplain, m, m', hinfix, (hlast m).mp hm, hchar⟩
    · rintro ⟨hplain, m, m', hinfix, hm, hm'⟩
      exact ⟨m, m', hinfix, (hlast m).mpr hm, (hfirst m').mpr ⟨hm', hplain⟩⟩
  · rintro ⟨m, -, hinfix⟩
    exact not_open_infix_memberSpelling hhyphen m.written hinfix

theorem listSpelling_ne_nil (h : members ≠ []) : listSpelling members ≠ [] := by
  obtain ⟨m, rest, rfl⟩ := List.exists_cons_of_ne_nil h
  rw [listSpelling, List.flatMap_cons]
  exact List.append_ne_nil_of_left_ne_nil (memberSpelling_ne_nil m.written) _

/-- A range that ascends still does when it is read back, unless an invalid byte ends it. -/
theorem le_of_range_mem_written (hproper : ∀ m ∈ members, m.Proper)
    (hchars : ∀ c ∈ members.flatMap Member.characters, c ≠ Utf8.invalid → Utf8.IsCodePoint c)
    {lo hi : CodePoint} (h : .range lo hi ∈ members.map Member.written) :
    lo ≤ hi ∨ (hi = Utf8.replacement ∧ .range lo Utf8.invalid ∈ members) := by
  obtain ⟨m, hm, hwritten⟩ := List.mem_map.mp h
  cases m with
  | single c => exact Member.noConfusion hwritten
  | range a b =>
    obtain ⟨rfl, rfl⟩ := Member.range.inj hwritten
    have hle : a ≤ b := hproper _ hm
    have ha := hchars a (List.mem_flatMap.mpr ⟨_, hm, by simp [Member.characters]⟩)
    have hb := hchars b (List.mem_flatMap.mpr ⟨_, hm, by simp [Member.characters]⟩)
    by_cases hinvalid : b = Utf8.invalid
    · subst hinvalid
      by_cases hboth : a = Utf8.invalid
      · subst hboth
        exact .inl (Int.le_refl _)
      · rw [Utf8.written_of_isCodePoint (ha hboth)]
        exact .inr ⟨rfl, hm⟩
    · -- no code point is above an invalid byte, so the lower bound is one too
      have hlower : a ≠ Utf8.invalid := by
        rintro rfl
        exact absurd (Int.le_trans hle (hb hinvalid).2) (by decide)
      rw [Utf8.written_of_isCodePoint (ha hlower), Utf8.written_of_isCodePoint (hb hinvalid)]
      exact .inl hle

end Members

end Rendering.Regex

namespace Rendering

open Regex

/-- The lists of a regular expression are those of the pattern, in their order. None of them is empty. A range
ascends, unless the pattern has it up to an invalid byte, for which a replacement character is written. Directly
behind a `[`, which is written as it is, comes a `:` or a `=` exactly where the members of the pattern adjoin in
this way, and a `.` never does. -/
theorem regex_lists_valid {pattern : Bytes} {items : List Item} (h : Pattern.parse pattern = .ok items) :
    ∃ expression, regex pattern = .ok expression ∧
      List.Forall₂
        (fun members text =>
          text ≠ [] ∧
          (∀ lo hi, .range lo hi ∈ listMembers (hyphens text) →
            lo ≤ hi ∨ (hi = Utf8.replacement ∧ .range lo Utf8.invalid ∈ members)) ∧
          (∀ d ∈ Utf8.ascii ":=",
            ([⟨0x5B, false⟩, ⟨d, false⟩] <:+: text ↔ Member.Adjoin members 0x5B d)) ∧
          ¬ [⟨0x5B, false⟩, ⟨0x2E, false⟩] <:+: text)
        (items.filterMap Item.members?) (listTexts none (tokens (Utf8.codePoints expression))) := by
  refine ⟨_, by rw [regex, h]; rfl, ?_⟩
  rw [Function.comp_apply, listTexts_codePoints, List.forall₂_map_right_iff, List.forall₂_same]
  intro members hmembers
  obtain ⟨i, hi, hlist⟩ := List.mem_filterMap.mp hmembers
  obtain rfl := Item.members?_eq_some_iff.mp hlist
  obtain ⟨hne, hproper⟩ : members ≠ [] ∧ ∀ m ∈ members, m.Proper := Pattern.proper_of_parse h _ hi
  have hchars : ∀ c ∈ members.flatMap Member.characters, c ≠ Utf8.invalid → Utf8.IsCodePoint c := by
    intro c hc
    have hitems : c ∈ items.flatMap Item.characters := List.mem_flatMap.mpr ⟨_, hi, hc⟩
    exact Utf8.isCodePoint_of_mem_codePoints (Pattern.characters_of_parse h hitems)
  refine ⟨listSpelling_ne_nil hne, fun lo hi hrange => ?_, fun d hd => ?_, fun hdot => ?_⟩
  · rw [listMembers_listSpelling] at hrange
    exact le_of_range_mem_written hproper hchars hrange
  · have hplain : ∀ d ∈ Utf8.ascii ":=", Utf8.IsCodePoint d ∧ d ≠ Utf8.replacement ∧ d ≠ 0x2D ∧
        listToken d = ⟨d, false⟩ := by decide
    obtain ⟨hpoint, hreplacement, hhyphen, htoken⟩ := hplain d hd
    rw [open_infix_iff hpoint hreplacement hhyphen, and_iff_right htoken]
  · have hescaped := ((open_infix_iff (by decide) (by decide) (by decide)).mp hdot).1
    exact absurd hescaped (by decide)

/-- Of `[[.=]x[a-c[=]` the first list is valid, and a syntax with classes reads more into the second one. -/
theorem regex_lists_valid_equals :
    ∃ items, Pattern.parse (Bytes.ascii "[[.=]x[a-c[=]") = .ok items ∧
      regex (Bytes.ascii "[[.=]x[a-c[=]") = .ok (Bytes.ascii "^[[\\.=]x[a-c[=]$") ∧
      ∃ text text', listTexts none (tokens (Utf8.codePoints (Bytes.ascii "^[[\\.=]x[a-c[=]$"))) =
          [text, text'] ∧
        text ≠ [] ∧ ¬ [⟨0x5B, false⟩, ⟨0x2E, false⟩] <:+: text ∧
        [⟨0x5B, false⟩, ⟨0x3D, false⟩] <:+: text' := by
  have h : Pattern.parse (Bytes.ascii "[[.=]x[a-c[=]") =
      .ok [.oneOf [.single 0x5B, .single 0x2E, .single 0x3D], .literal 0x78,
        .oneOf [.range 0x61 0x63, .single 0x5B, .single 0x3D]] := by decide +kernel
  have hregex : regex (Bytes.ascii "[[.=]x[a-c[=]") = .ok (Bytes.ascii "^[[\\.=]x[a-c[=]$") := by
    decide +kernel
  obtain ⟨expression, hmade, hlists⟩ := regex_lists_valid h
  obtain rfl := Except.ok.inj (hmade.symm.trans hregex)
  generalize listTexts none (tokens (Utf8.codePoints (Bytes.ascii "^[[\\.=]x[a-c[=]$"))) = texts at *
  obtain ⟨text, rest, ⟨hne, -, -, hdot⟩, hrest, rfl⟩ := List.forall₂_cons_left_iff.mp hlists
  obtain ⟨text', rest', ⟨-, -, hopen, -⟩, hrest', rfl⟩ := List.forall₂_cons_left_iff.mp hrest
  obtain rfl := List.forall₂_nil_left_iff.mp hrest'
  refine ⟨_, h, hregex, text, text', rfl, hne, hdot, (hopen 0x3D (by decide)).mpr ?_⟩
  exact ⟨.single 0x5B, .single 0x3D, ⟨[.range 0x61 0x63], [], rfl⟩, rfl, rfl⟩

/-- The list of `[[:]` seems to begin a class. The invalid byte at the end of the other list makes its range
end below its beginning, which is U+FFFE. -/
theorem regex_lists_not_valid :
    regex (Bytes.ascii "[[:]") = .ok (Bytes.ascii "^[[:]$") ∧
      (¬ ∀ text ∈ listTexts none (tokens (Utf8.codePoints (Bytes.ascii "^[[:]$"))), ValidList text) ∧
      regex [0x5B, 0xEF, 0xBF, 0xBE, 0x2D, 0xFF, 0x5D] =
        .ok [0x5E, 0x5B, 0xEF, 0xBF, 0xBE, 0x2D, 0xEF, 0xBF, 0xBD, 0x5D, 0x24] ∧
      ¬ ∀ text ∈ listTexts none (tokens
        (Utf8.codePoints [0x5E, 0x5B, 0xEF, 0xBF, 0xBE, 0x2D, 0xEF, 0xBF, 0xBD, 0x5D, 0x24])),
          ValidList text := by
  have hclass : listTexts none (tokens (Utf8.codePoints (Bytes.ascii "^[[:]$"))) =
      [[⟨0x5B, false⟩, ⟨0x3A, false⟩]] := by decide +kernel
  have hrange : listTexts none (tokens
      (Utf8.codePoints [0x5E, 0x5B, 0xEF, 0xBF, 0xBE, 0x2D, 0xEF, 0xBF, 0xBD, 0x5D, 0x24])) =
        [[⟨0xFFFE, false⟩, ⟨0x2D, false⟩, ⟨0xFFFD, false⟩]] := by decide +kernel
  refine ⟨by decide +kernel, fun hvalid => ?_, by decide +kernel, fun hvalid => ?_⟩
  · rw [hclass, List.forall_mem_singleton] at hvalid
    exact hvalid.no_class 0x3A (by decide) (List.infix_refl _)
  · rw [hrange, List.forall_mem_singleton] at hvalid
    exact absurd (hvalid.ascending 0xFFFE 0xFFFD (by decide)) (by decide)

end Rendering

end NameGlob
