import NameGlob.Rendering.Regex

/-!
# Reading regular expressions

A regular expression is read by code points. A backslash takes away the special meaning of the next one,
so a first pass makes tokens; a list is read from the tokens in front of its first plain `]`. What is read
are items of patterns, as the parts of a rendering correspond to items one by one.
-/

namespace NameGlob.Rendering.Regex

/-- A code point of a regular expression, and whether a backslash escapes it. -/
structure Token where
  char : CodePoint
  escaped : Bool
  deriving Repr, DecidableEq

/-- Pairs each backslash with the code point behind it. A backslash at the end stands for itself. -/
def tokens : List CodePoint → List Token
  | [] => []
  | [c] => [⟨c, false⟩]
  | c :: d :: rest =>
    if c = 0x5C then ⟨d, true⟩ :: tokens rest else ⟨c, false⟩ :: tokens (d :: rest)

/-- In a list, an escaped `x` followed by `2d` is an escaped hyphen. -/
def hyphens : List Token → List Token
  | t :: u :: v :: rest =>
    if t = ⟨0x78, true⟩ ∧ u = ⟨0x32, false⟩ ∧ v = ⟨0x64, false⟩ then ⟨0x2D, true⟩ :: hyphens rest
    else t :: hyphens (u :: v :: rest)
  | ts => ts

/-- The members of a list. A plain hyphen between two tokens makes a range. -/
def listMembers : List Token → List Member
  | lo :: dash :: hi :: rest =>
    if dash = ⟨0x2D, false⟩ then .range lo.char hi.char :: listMembers rest
    else .single lo.char :: listMembers (dash :: hi :: rest)
  | t :: rest => .single t.char :: listMembers rest
  | [] => []

/-- Reads tokens as items, inside the list with the tokens `list?`, the latest first, if one is open. A
list that no plain `]` closes has no reading. -/
def readItems (list? : Option (List Token)) (ts : List Token) : Option (List Item) :=
  match list?, ts with
  | none, [] => some []
  | some _, [] => none
  | some list, t :: rest =>
    if t = ⟨0x5D, false⟩ then
      (readItems none rest).map (.oneOf (listMembers (hyphens list.reverse)) :: ·)
    else readItems (some (t :: list)) rest
  | none, [t] =>
    if t = ⟨0x5B, false⟩ then none
    else some [if t = ⟨0x2E, false⟩ then .anyOne else .literal t.char]
  | none, t :: u :: rest =>
    if t = ⟨0x5B, false⟩ then readItems (some []) (u :: rest)
    else if t = ⟨0x2E, false⟩ then
      if u = ⟨0x2A, false⟩ then (readItems none rest).map (.anySequence :: ·)
      else (readItems none (u :: rest)).map (.anyOne :: ·)
    else (readItems none (u :: rest)).map (.literal t.char :: ·)
termination_by structural ts

/-- What a regular expression searches for in a text. -/
structure Search where
  /-- The items begin at the beginning of the text. -/
  atStart : Bool
  /-- The items end at the end of the text. -/
  atEnd : Bool
  items : List Item
  deriving Repr, DecidableEq

def takeStart (ts : List Token) : Bool × List Token :=
  if ts.head? = some ⟨0x5E, false⟩ then (true, ts.tail) else (false, ts)

def takeEnd (ts : List Token) : Bool × List Token :=
  if ts.getLast? = some ⟨0x24, false⟩ then (true, ts.dropLast) else (false, ts)

/-- What a regular expression searches for: its items, once an anchor is taken off either end. -/
def read (regex : List CodePoint) : Option Search :=
  let (atStart, ts) := takeStart (tokens regex)
  let (atEnd, ts) := takeEnd ts
  (readItems none ts).map (⟨atStart, atEnd, ·⟩)

section Tokens

variable {c d : CodePoint} {rest : List CodePoint}

theorem tokens_escaped (c : CodePoint) (rest : List CodePoint) :
    tokens (0x5C :: c :: rest) = ⟨c, true⟩ :: tokens rest := by
  rw [tokens, if_pos rfl]

theorem tokens_plain (h : c ≠ 0x5C) (rest : List CodePoint) :
    tokens (c :: rest) = ⟨c, false⟩ :: tokens rest := by
  cases rest with
  | nil => rfl
  | cons d rest => rw [tokens, if_neg h]

/-- The token of a character outside bracket lists. -/
def charToken (c : CodePoint) : Token := ⟨c, special.contains c⟩

/-- The token of a character in a bracket list. -/
def listToken (c : CodePoint) : Token :=
  if c = 0x5B then ⟨c, false⟩
  else if c = 0x5D ∨ c = 0x2D then ⟨c, true⟩
  else charToken c

/-- The tokens that spell a character in a bracket list. -/
def spelling (c : CodePoint) : List Token :=
  if c = 0x2D then [⟨0x78, true⟩, ⟨0x32, false⟩, ⟨0x64, false⟩] else [listToken c]

theorem charToken_ne (h : special.contains d = true) : charToken c ≠ ⟨d, false⟩ := by
  intro heq
  obtain ⟨rfl, hspecial⟩ := Token.mk.inj heq
  rw [h] at hspecial
  exact Bool.noConfusion hspecial

theorem tokens_char (c : CodePoint) (rest : List CodePoint) :
    tokens (char c ++ rest) = charToken c :: tokens rest := by
  unfold char charToken
  split
  · rename_i h
    rw [List.cons_append, List.singleton_append, tokens_escaped, h]
  · rename_i h
    have hplain : c ≠ 0x5C := by
      rintro rfl
      exact h (by decide)
    rw [List.singleton_append, tokens_plain hplain, Bool.eq_false_iff.mpr h]

theorem tokens_listChar (c : CodePoint) (rest : List CodePoint) :
    tokens (listChar c ++ rest) = spelling c ++ tokens rest := by
  by_cases hopen : c = 0x5B
  · subst hopen
    exact tokens_plain (by decide) rest
  by_cases hclose : c = 0x5D
  · subst hclose
    exact tokens_escaped 0x5D rest
  by_cases hhyphen : c = 0x2D
  · subst hhyphen
    have hspell : listChar 0x2D = [0x5C, 0x78, 0x32, 0x64] := by decide
    rw [hspell, List.cons_append, List.cons_append, tokens_escaped, List.cons_append,
      tokens_plain (by decide), List.cons_append, tokens_plain (by decide)]
    rfl
  · rw [listChar, if_neg hopen, if_neg hclose, if_neg hhyphen, tokens_char, spelling,
      if_neg hhyphen, listToken, if_neg hopen, if_neg (by simp [hclose, hhyphen])]
    rfl

theorem listToken_char (c : CodePoint) : (listToken c).char = c := by
  unfold listToken charToken
  split
  · rfl
  · split <;> rfl

theorem listToken_ne (h : d = 0x5D ∨ d = 0x2D) : listToken c ≠ ⟨d, false⟩ := by
  intro heq
  have hc : c = d := by rw [← listToken_char c, heq]
  subst hc
  rcases h with rfl | rfl
  · exact absurd heq (by decide)
  · exact absurd heq (by decide)

/-- An escaped `x` is not the token of a character, so only a hyphen is spelled with it. -/
theorem listToken_ne_escaped : listToken c ≠ ⟨0x78, true⟩ := by
  intro heq
  have hc : c = 0x78 := by rw [← listToken_char c, heq]
  subst hc
  exact absurd heq (by decide)

end Tokens

section Lists

variable {c : CodePoint} {ts : List Token} {members : List Member}

theorem hyphens_cons {t : Token} (h : t ≠ ⟨0x78, true⟩) (ts : List Token) :
    hyphens (t :: ts) = t :: hyphens ts := by
  match ts with
  | [] => rfl
  | [u] => rfl
  | u :: v :: rest => rw [hyphens, if_neg (by simp [h])]

theorem hyphens_spelling (c : CodePoint) (ts : List Token) :
    hyphens (spelling c ++ ts) = listToken c :: hyphens ts := by
  unfold spelling
  split
  · rename_i h
    subst h
    rw [List.cons_append, List.cons_append, List.singleton_append, hyphens,
      if_pos ⟨rfl, rfl, rfl⟩]
    rfl
  · rw [List.singleton_append, hyphens_cons listToken_ne_escaped]

/-- The tokens that spell a member of a list. -/
def memberSpelling : Member → List Token
  | .single c => spelling c
  | .range lo hi => spelling lo ++ ⟨0x2D, false⟩ :: spelling hi

/-- The tokens of a member once its hyphens are read. -/
def memberTokens : Member → List Token
  | .single c => [listToken c]
  | .range lo hi => [listToken lo, ⟨0x2D, false⟩, listToken hi]

theorem tokens_member (m : Member) (rest : List CodePoint) :
    tokens (member m ++ rest) = memberSpelling m ++ tokens rest := by
  cases m with
  | single c => exact tokens_listChar c rest
  | range lo hi =>
    rw [member, List.append_assoc, tokens_listChar, List.cons_append, tokens_plain (by decide),
      tokens_listChar, memberSpelling, List.append_assoc]
    rfl

theorem hyphens_memberSpelling (m : Member) (ts : List Token) :
    hyphens (memberSpelling m ++ ts) = memberTokens m ++ hyphens ts := by
  cases m with
  | single c => exact hyphens_spelling c ts
  | range lo hi =>
    rw [memberSpelling, List.append_assoc, hyphens_spelling, List.cons_append,
      hyphens_cons (by decide), hyphens_spelling]
    rfl

theorem hyphens_flatMap (members : List Member) :
    hyphens (members.flatMap memberSpelling) = members.flatMap memberTokens := by
  induction members with
  | nil => rfl
  | cons m members ih => rw [List.flatMap_cons, hyphens_memberSpelling, ih, List.flatMap_cons]

theorem listMembers_single {t : Token} (h : ts.head? ≠ some ⟨0x2D, false⟩) :
    listMembers (t :: ts) = .single t.char :: listMembers ts := by
  match ts with
  | [] => rfl
  | [u] => rfl
  | u :: v :: rest => rw [listMembers, if_neg (by simpa using h)]

theorem head?_memberTokens (members : List Member) :
    (members.flatMap memberTokens).head? ≠ some ⟨0x2D, false⟩ := by
  cases members with
  | nil => simp
  | cons m members =>
    cases m with
    | single c => simp [memberTokens, listToken_ne]
    | range lo hi => simp [memberTokens, listToken_ne]

/-- The members of a list are read back from their tokens. -/
theorem listMembers_flatMap (members : List Member) :
    listMembers (members.flatMap memberTokens) = members := by
  induction members with
  | nil => rfl
  | cons m members ih =>
    cases m with
    | single c =>
      rw [List.flatMap_cons, memberTokens, List.singleton_append,
        listMembers_single (head?_memberTokens members), ih, listToken_char]
    | range lo hi =>
      rw [List.flatMap_cons, memberTokens, List.cons_append, List.cons_append,
        List.singleton_append, listMembers, if_pos rfl, ih, listToken_char, listToken_char]

end Lists

section Items

variable {c : CodePoint} {ts rest : List Token} {items : List Item}

theorem readItems_list {before : List Token} (h : ∀ t ∈ ts, t ≠ ⟨0x5D, false⟩) (rest : List Token) :
    readItems (some before) (ts ++ ⟨0x5D, false⟩ :: rest) =
      (readItems none rest).map (.oneOf (listMembers (hyphens (before.reverse ++ ts))) :: ·) := by
  induction ts generalizing before with
  | nil => rw [List.nil_append, readItems, if_pos rfl, List.append_nil]
  | cons t ts ih =>
    rw [List.forall_mem_cons] at h
    rw [List.cons_append, readItems, if_neg h.1, ih h.2, List.reverse_cons, List.append_assoc,
      List.singleton_append]

theorem readItems_open (rest : List Token) :
    readItems none (⟨0x5B, false⟩ :: rest) = readItems (some []) rest := by
  cases rest with
  | nil => rfl
  | cons u rest =>
    conv => lhs; rw [readItems, if_pos rfl]

theorem readItems_literal {t : Token} (hopen : t ≠ ⟨0x5B, false⟩) (hdot : t ≠ ⟨0x2E, false⟩)
    (rest : List Token) :
    readItems none (t :: rest) = (readItems none rest).map (.literal t.char :: ·) := by
  cases rest with
  | nil => simp [readItems, hopen, hdot]
  | cons u rest => rw [readItems, if_neg hopen, if_neg hdot]

theorem readItems_anyOne (h : rest.head? ≠ some ⟨0x2A, false⟩) :
    readItems none (⟨0x2E, false⟩ :: rest) = (readItems none rest).map (.anyOne :: ·) := by
  cases rest with
  | nil => rfl
  | cons u rest => rw [readItems, if_neg (by decide), if_pos rfl, if_neg (by simpa using h)]

theorem readItems_anySequence (rest : List Token) :
    readItems none (⟨0x2E, false⟩ :: ⟨0x2A, false⟩ :: rest) =
      (readItems none rest).map (.anySequence :: ·) := by
  rw [readItems, if_neg (by decide), if_pos rfl, if_pos rfl]

/-- The tokens of an item. -/
def itemTokens : Item → List Token
  | .literal c => [charToken c]
  | .anyOne => [⟨0x2E, false⟩]
  | .anySequence => [⟨0x2E, false⟩, ⟨0x2A, false⟩]
  | .oneOf members => ⟨0x5B, false⟩ :: members.flatMap memberSpelling ++ [⟨0x5D, false⟩]

theorem tokens_members (members : List Member) (rest : List CodePoint) :
    tokens (members.flatMap member ++ rest) = members.flatMap memberSpelling ++ tokens rest := by
  induction members with
  | nil => rfl
  | cons m members ih =>
    rw [List.flatMap_cons, List.append_assoc, tokens_member, ih, List.flatMap_cons, List.append_assoc]

theorem tokens_item (i : Item) (rest : List CodePoint) :
    tokens (item i ++ rest) = itemTokens i ++ tokens rest := by
  cases i with
  | literal c => exact tokens_char c rest
  | anyOne => exact tokens_plain (by decide) rest
  | anySequence =>
    rw [item, List.cons_append, tokens_plain (by decide), List.singleton_append,
      tokens_plain (by decide)]
    rfl
  | oneOf members =>
    rw [item, List.cons_append, List.cons_append, tokens_plain (by decide), List.append_assoc,
      tokens_members, List.singleton_append, tokens_plain (by decide), itemTokens]
    simp

theorem tokens_flatMap (items : List Item) (rest : List CodePoint) :
    tokens (items.flatMap item ++ rest) = items.flatMap itemTokens ++ tokens rest := by
  induction items with
  | nil => rfl
  | cons i items ih =>
    rw [List.flatMap_cons, List.append_assoc, tokens_item, ih, List.flatMap_cons, List.append_assoc]

/-- No list closes before its last member. -/
theorem memberSpelling_ne (m : Member) : ∀ t ∈ memberSpelling m, t ≠ ⟨0x5D, false⟩ := by
  have hspelling : ∀ c, ∀ t ∈ spelling c, t ≠ ⟨0x5D, false⟩ := by
    intro c
    unfold spelling
    split
    · decide
    · rw [List.forall_mem_singleton]
      exact listToken_ne (.inl rfl)
  cases m with
  | single c => exact hspelling c
  | range lo hi =>
    rw [memberSpelling, List.forall_mem_append, List.forall_mem_cons]
    exact ⟨hspelling lo, by decide, hspelling hi⟩

theorem head?_itemTokens {d : CodePoint} (h : special.contains d = true) (hd : d ≠ 0x2E ∧ d ≠ 0x5B)
    (items : List Item) (hrest : rest.head? ≠ some ⟨d, false⟩) :
    (items.flatMap itemTokens ++ rest).head? ≠ some ⟨d, false⟩ := by
  cases items with
  | nil => exact hrest
  | cons i items =>
    cases i with
    | literal c => simpa [itemTokens] using charToken_ne h
    | anyOne => simpa [itemTokens] using Ne.symm hd.1
    | anySequence => simpa [itemTokens] using Ne.symm hd.1
    | oneOf members => simpa [itemTokens] using Ne.symm hd.2

/-- The items are read back from their tokens. -/
theorem readItems_flatMap (items : List Item) :
    readItems none (items.flatMap itemTokens) = some items := by
  induction items with
  | nil => rfl
  | cons i items ih =>
    rw [List.flatMap_cons]
    cases i with
    | literal c =>
      rw [itemTokens, List.singleton_append,
        readItems_literal (charToken_ne (by decide)) (charToken_ne (by decide)), ih]
      rfl
    | anyOne =>
      -- no item begins with a plain `*`, so the `.` stays alone
      have hhead : (items.flatMap itemTokens ++ []).head? ≠ some ⟨0x2A, false⟩ :=
        head?_itemTokens (by decide) (by decide) items (by simp)
      rw [List.append_nil] at hhead
      rw [itemTokens, List.singleton_append, readItems_anyOne hhead, ih]
      rfl
    | anySequence =>
      rw [itemTokens, List.cons_append, List.singleton_append, readItems_anySequence, ih]
      rfl
    | oneOf members =>
      have hclose : ∀ t ∈ members.flatMap memberSpelling, t ≠ ⟨0x5D, false⟩ := by
        intro t ht
        obtain ⟨m, -, ht⟩ := List.mem_flatMap.mp ht
        exact memberSpelling_ne m t ht
      rw [itemTokens, List.cons_append, List.cons_append, List.append_assoc, List.singleton_append,
        readItems_open, readItems_list hclose, ih, List.reverse_nil, List.nil_append,
        hyphens_flatMap, listMembers_flatMap]
      rfl

end Items

end NameGlob.Rendering.Regex
