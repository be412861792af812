import NameGlob.Pattern.Item
import NameGlob.Pattern.Symbol
import NameGlob.Pattern.SyntaxError

/-!
# The grammar of patterns

A pattern is a sequence of pieces. The grammar says which pieces the characters of a pattern form, and
which events and defects they stand for, without a word on how a pattern is read. Every pattern has
exactly one sequence of pieces, and its defects come in the order of their offsets.

## Main definitions

- `Grammar.Piece` — a piece of a pattern
- `Grammar.ClosedList` — the characters of a bracket list up to the `]` that closes it
- `Grammar.Splits` — the pieces that characters form
- `Grammar.Derives` — the pieces of a pattern
- `Grammar.entriesFrom` — the members of a bracket list
- `Grammar.Defect` — what is wrong with a piece, and where
-/

namespace NameGlob

/-- The event reports a range that ends below its beginning. -/
def Event.isInverted : Event → Bool
  | .listRange lo hi => hi < lo
  | _ => false

namespace Grammar

/-- A piece of a pattern. -/
inductive Piece where
  | literal (c : CodePoint)
  | anyOne
  | anySequence
  /-- A closed bracket list with these characters between its brackets. -/
  | list (symbols : List Symbol)
  /-- The rest of the pattern from a `[` at `offset` that nothing closes. -/
  | unclosed (offset : Nat)

/-- What is wrong with a piece of a pattern. -/
structure Defect where
  cause : SyntaxError.Cause
  offset : Nat
  deriving DecidableEq

/-- The characters behind a `[` begin with these symbols and the `]` that closes the list. The flag tells
that the `[` is directly in front of them. -/
inductive ClosedList :
    Bool → List (CodePoint × Nat) → List Symbol → List (CodePoint × Nat) → Prop where
  /-- A plain `]` that is not the first character closes the list. -/
  | close {c : CodePoint} {offset : Nat} {rest : List (CodePoint × Nat)} (hclose : c = 0x5D) :
      ClosedList false ((c, offset) :: rest) [] rest
  /-- A backtick makes the next character a member. -/
  | quoted {first : Bool} {c d : CodePoint} {escape offset : Nat}
      {chars rest : List (CodePoint × Nat)} {symbols : List Symbol} (hquote : c = backtick)
      (closed : ClosedList false chars symbols rest) :
      ClosedList first ((c, escape) :: (d, offset) :: chars) (⟨d, true, offset⟩ :: symbols) rest
  /-- Any other character is a member, a `]` only when it is the first. -/
  | plain {first : Bool} {c : CodePoint} {offset : Nat}
      {chars rest : List (CodePoint × Nat)} {symbols : List Symbol} (hquote : c ≠ backtick)
      (hfirst : c = 0x5D → first = true) (closed : ClosedList false chars symbols rest) :
      ClosedList first ((c, offset) :: chars) (⟨c, false, offset⟩ :: symbols) rest

/-- The characters form these pieces. -/
inductive Splits : List (CodePoint × Nat) → List Piece → Prop where
  | nil : Splits [] []
  /-- A backtick at the end is a literal. -/
  | dangling {c : CodePoint} {offset : Nat} (hquote : c = backtick) :
      Splits [(c, offset)] [.literal backtick]
  /-- A backtick makes the next character a literal. -/
  | quoted {c d : CodePoint} {escape offset : Nat} {rest : List (CodePoint × Nat)}
      {pieces : List Piece} (hquote : c = backtick) (splits : Splits rest pieces) :
      Splits ((c, escape) :: (d, offset) :: rest) (.literal d :: pieces)
  | anySequence {c : CodePoint} {offset : Nat} {rest : List (CodePoint × Nat)} {pieces : List Piece}
      (hstar : c = 0x2A) (splits : Splits rest pieces) :
      Splits ((c, offset) :: rest) (.anySequence :: pieces)
  | anyOne {c : CodePoint} {offset : Nat} {rest : List (CodePoint × Nat)} {pieces : List Piece}
      (hmark : c = 0x3F) (splits : Splits rest pieces) :
      Splits ((c, offset) :: rest) (.anyOne :: pieces)
  /-- A `[` opens a list that a `]` closes. -/
  | list {c : CodePoint} {offset : Nat} {chars rest : List (CodePoint × Nat)} {symbols : List Symbol}
      {pieces : List Piece} (hopen : c = 0x5B) (closed : ClosedList true chars symbols rest)
      (splits : Splits rest pieces) :
      Splits ((c, offset) :: chars) (.list symbols :: pieces)
  /-- A `[` opens a list that nothing closes. -/
  | unclosed {c : CodePoint} {offset : Nat} {chars : List (CodePoint × Nat)} (hopen : c = 0x5B)
      (unclosed : ∀ symbols rest, ¬ ClosedList true chars symbols rest) :
      Splits ((c, offset) :: chars) [.unclosed offset]
  /-- Any other character is a literal. -/
  | literal {c : CodePoint} {offset : Nat} {rest : List (CodePoint × Nat)} {pieces : List Piece}
      (hplain : c ∉ [backtick, 0x2A, 0x3F, 0x5B]) (splits : Splits rest pieces) :
      Splits ((c, offset) :: rest) (.literal c :: pieces)

/-- The pieces of a pattern. A backtick alone has none. -/
def Derives (pattern : Bytes) (pieces : List Piece) : Prop :=
  if pattern = [0x60] then pieces = [] else Splits (Symbol.locate 0 (Utf8.chars pattern)) pieces

/-- The members of a bracket list with these characters, from the index `i` on. Each comes with the byte
offset of its first character. -/
def entriesFrom (symbols : List Symbol) (i : Nat) : List (Member × Nat) :=
  if h : i < symbols.length then
    let lo := symbols[i]
    if hrange : ∃ _ : i + 2 < symbols.length, symbols[i + 1].isPlain 0x2D then
      (.range lo.char (symbols.get ⟨i + 2, hrange.1⟩).char, lo.offset) :: entriesFrom symbols (i + 3)
    else (.single lo.char, lo.offset) :: entriesFrom symbols (i + 1)
  else []
termination_by symbols.length - i

/-- The events that a piece stands for. -/
def Piece.events : Piece → List Event
  | .literal c => [.literal c]
  | .anyOne => [.anyOne]
  | .anySequence => [.anySequence]
  | .list symbols =>
    .listStart :: (entriesFrom symbols 0).map (fun entry => entry.1.event) ++ [.listEnd]
  | .unclosed _ => []

/-- What is wrong with a piece: each range that ends below its beginning, and a list that is not closed. -/
def Piece.defects : Piece → List Defect
  | .list symbols =>
    ((entriesFrom symbols 0).filter fun entry => entry.1.event.isInverted).map
      fun entry => ⟨.invertedRange, entry.2⟩
  | .unclosed offset => [⟨.unclosedList, offset⟩]
  | _ => []

theorem Piece.isInverted_eq_false {piece : Piece} (h : piece.defects = []) :
    ∀ e ∈ piece.events, e.isInverted = false := by
  cases piece with
  | list symbols =>
    have hsound : ∀ entry ∈ entriesFrom symbols 0, entry.1.event.isInverted = false := by
      simpa [Piece.defects] using h
    rw [Piece.events, List.cons_append, List.forall_mem_cons, List.forall_mem_append]
    exact ⟨rfl, List.forall_mem_map.mpr hsound, by simp [Event.isInverted]⟩
  | _ => simp [Piece.events, Event.isInverted]

variable {pattern : Bytes} {chars rest rest' : List (CodePoint × Nat)} {symbols symbols' : List Symbol}
  {pieces others : List Piece} {first : Bool}

theorem ClosedList.unique (h : ClosedList first chars symbols rest)
    (h' : ClosedList first chars symbols' rest') : symbols = symbols' ∧ rest = rest' := by
  induction h generalizing symbols' with
  | close hclose =>
    cases h' with
    | close => exact ⟨rfl, rfl⟩
    | quoted hquote => simp [hclose, backtick] at hquote
    | plain _ hfirst => simp [hclose] at hfirst
  | quoted hquote _ ih =>
    cases h' with
    | close hclose => simp [hclose, backtick] at hquote
    | quoted _ closed =>
      obtain ⟨rfl, rfl⟩ := ih closed
      exact ⟨rfl, rfl⟩
    | plain hplain => exact absurd hquote hplain
  | plain hquote hfirst _ ih =>
    cases h' with
    | close hclose => simp [hclose] at hfirst
    | quoted hquoted => exact absurd hquoted hquote
    | plain _ _ closed =>
      obtain ⟨rfl, rfl⟩ := ih closed
      exact ⟨rfl, rfl⟩

theorem ClosedList.length_lt (h : ClosedList first chars symbols rest) :
    rest.length < chars.length := by
  induction h with
  | close => simp
  | quoted _ _ ih => simp only [List.length_cons]; omega
  | plain _ _ _ ih => simp only [List.length_cons]; omega

theorem ClosedList.symbols_ne_nil (h : ClosedList true chars symbols rest) : symbols ≠ [] := by
  cases h with
  | quoted => simp
  | plain => simp

/-- The characters of a closed list and those behind it come in the order in which they stand. -/
theorem ClosedList.offsets_sublist (h : ClosedList first chars symbols rest) :
    (symbols.map Symbol.offset ++ rest.map Prod.snd).Sublist (chars.map Prod.snd) := by
  induction h with
  | close => exact List.sublist_cons_self _ _
  | quoted _ _ ih => exact (ih.cons_cons _).cons _
  | plain _ _ _ ih => exact ih.cons_cons _

theorem Splits.unique (h : Splits chars pieces) (h' : Splits chars others) : pieces = others := by
  induction h generalizing others with
  | nil =>
    cases h'
    rfl
  | dangling hquote =>
    cases h' with
    | dangling => rfl
    | _ => simp_all [backtick]
  | quoted hquote _ ih =>
    cases h' with
    | quoted _ splits => rw [ih splits]
    | _ => simp_all [backtick]
  | anySequence hstar _ ih =>
    cases h' with
    | anySequence _ splits => rw [ih splits]
    | _ => simp_all [backtick]
  | anyOne hmark _ ih =>
    cases h' with
    | anyOne _ splits => rw [ih splits]
    | _ => simp_all [backtick]
  | list hopen closed _ ih =>
    cases h' with
    | list _ closed' splits =>
      obtain ⟨rfl, rfl⟩ := closed.unique closed'
      rw [ih splits]
    | unclosed _ hnone => exact absurd closed (hnone _ _)
    | _ => simp_all [backtick]
  | unclosed hopen hnone =>
    cases h' with
    | list _ closed => exact absurd closed (hnone _ _)
    | unclosed => rfl
    | _ => simp_all [backtick]
  | literal hplain _ ih =>
    cases h' with
    | literal _ splits => rw [ih splits]
    | _ => simp_all

theorem exists_splits (chars : List (CodePoint × Nat)) : ∃ pieces, Splits chars pieces := by
  induction hlength : chars.length using Nat.strongRecOn generalizing chars with
  | ind n ih =>
    subst hlength
    cases chars with
    | nil => exact ⟨[], .nil⟩
    | cons char chars =>
      obtain ⟨c, offset⟩ := char
      obtain ⟨pieces, hpieces⟩ := ih chars.length (by simp) chars rfl
      by_cases hquote : c = backtick
      · cases chars with
        | nil => exact ⟨_, .dangling hquote⟩
        | cons char chars =>
          obtain ⟨pieces, hpieces⟩ :=
            ih chars.length (by simp only [List.length_cons]; omega) chars rfl
          exact ⟨_, .quoted hquote hpieces⟩
      by_cases hstar : c = 0x2A
      · exact ⟨_, .anySequence hstar hpieces⟩
      by_cases hmark : c = 0x3F
      · exact ⟨_, .anyOne hmark hpieces⟩
      by_cases hopen : c = 0x5B
      · by_cases hclosed : ∃ symbols rest, ClosedList true chars symbols rest
        · obtain ⟨symbols, rest, closed⟩ := hclosed
          obtain ⟨pieces, hpieces⟩ :=
            ih rest.length (Nat.lt_trans closed.length_lt (by simp)) rest rfl
          exact ⟨_, .list hopen closed hpieces⟩
        · -- no way to close the list, which is what the piece of an unclosed list asks for
          exact ⟨_, .unclosed hopen fun symbols rest h => hclosed ⟨symbols, rest, h⟩⟩
      · exact ⟨_, .literal (by simp [hquote, hstar, hmark, hopen]) hpieces⟩

theorem entriesFrom_offsets_sublist (symbols : List Symbol) (i : Nat) :
    ((entriesFrom symbols i).map Prod.snd).Sublist ((symbols.drop i).map Symbol.offset) := by
  fun_induction entriesFrom symbols i with
  | case1 i h _ hrange ih =>
    obtain ⟨hlt, -⟩ := hrange
    rw [List.drop_eq_getElem_cons h, List.drop_eq_getElem_cons (Nat.lt_of_succ_lt hlt),
      List.drop_eq_getElem_cons hlt]
    exact ((ih.cons _).cons _).cons_cons _
  | case2 i h _ _ ih =>
    rw [List.drop_eq_getElem_cons h]
    exact ih.cons_cons _
  | case3 => exact List.nil_sublist _

theorem defects_list_sublist (symbols : List Symbol) :
    ((Piece.list symbols).defects.map Defect.offset).Sublist (symbols.map Symbol.offset) := by
  have hentries := entriesFrom_offsets_sublist symbols 0
  rw [List.drop_zero] at hentries
  refine List.Sublist.trans ?_ hentries
  rw [Piece.defects, List.map_map]
  exact List.filter_sublist.map Prod.snd

/-- The defects of pieces come in the order of the characters at which they are reported. -/
theorem Splits.offsets_sublist (h : Splits chars pieces) :
    ((pieces.flatMap Piece.defects).map Defect.offset).Sublist (chars.map Prod.snd) := by
  induction h with
  | nil => exact .slnil
  | dangling => exact List.nil_sublist _
  | quoted _ _ ih => exact (ih.cons _).cons _
  | anySequence _ _ ih => exact ih.cons _
  | anyOne _ _ ih => exact ih.cons _
  | list _ closed _ ih =>
    rw [List.flatMap_cons, List.map_append]
    exact (((defects_list_sublist _).append ih).trans closed.offsets_sublist).cons _
  | unclosed => exact (List.nil_sublist _).cons_cons _
  | literal _ _ ih => exact ih.cons _

end Grammar

theorem Utf8.size_pos_of_mem_chars (bytes : Bytes) : ∀ char ∈ Utf8.chars bytes, 0 < char.2 := by
  fun_induction Utf8.chars bytes with
  | case1 => simp
  | case2 b rest c more _ ih =>
    intro char hchar
    rcases List.mem_cons.mp hchar with rfl | hchar
    · exact Nat.succ_pos more
    · exact ih char hchar

/-- Characters that take some bytes begin at ascending offsets. -/
theorem Symbol.locate_ascending {chars : List (CodePoint × Nat)} (h : ∀ char ∈ chars, 0 < char.2)
    (offset : Nat) :
    ((locate offset chars).map Prod.snd).Pairwise (· < ·) ∧
      ∀ place ∈ (locate offset chars).map Prod.snd, offset ≤ place := by
  induction chars generalizing offset with
  | nil => simp [locate]
  | cons char chars ih =>
    obtain ⟨c, size⟩ := char
    rw [List.forall_mem_cons] at h
    obtain ⟨hsize, h⟩ := h
    obtain ⟨hascending, hbehind⟩ := ih h (offset + size)
    rw [locate, List.map_cons, List.pairwise_cons, List.forall_mem_cons]
    refine ⟨⟨?_, hascending⟩, Nat.le_refl offset, ?_⟩
    · intro place hplace
      have := hbehind place hplace
      omega
    · intro place hplace
      have := hbehind place hplace
      omega

namespace Grammar

variable {pattern : Bytes} {pieces others : List Piece}

theorem exists_derives_iff (pattern : Bytes) :
    ∃ pieces, ∀ others, Derives pattern others ↔ others = pieces := by
  unfold Derives
  split
  · exact ⟨[], fun others => Iff.rfl⟩
  · obtain ⟨pieces, hpieces⟩ := exists_splits (Symbol.locate 0 (Utf8.chars pattern))
    refine ⟨pieces, fun others => ⟨fun hothers => hothers.unique hpieces, ?_⟩⟩
    rintro rfl
    exact hpieces

/-- The defects of a pattern come in the order of their offsets. -/
theorem Derives.ascending (h : Derives pattern pieces) :
    (pieces.flatMap Piece.defects).Pairwise fun d d' => d.offset < d'.offset := by
  unfold Derives at h
  split at h
  · rw [h]
    exact .nil
  · have hlocated := (Symbol.locate_ascending (Utf8.size_pos_of_mem_chars pattern) 0).1
    exact List.pairwise_map.mp (hlocated.sublist h.offsets_sublist)

theorem Splits.symbols_ne_nil {chars : List (CodePoint × Nat)} {symbols : List Symbol}
    (h : Splits chars pieces) (hlist : .list symbols ∈ pieces) : symbols ≠ [] := by
  induction h with
  | nil => simp at hlist
  | dangling => simp at hlist
  | quoted _ _ ih => exact ih (by simpa using hlist)
  | anySequence _ _ ih => exact ih (by simpa using hlist)
  | anyOne _ _ ih => exact ih (by simpa using hlist)
  | list _ closed _ ih =>
    rcases List.mem_cons.mp hlist with heq | hlist
    · cases heq
      exact closed.symbols_ne_nil
    · exact ih hlist
  | unclosed => simp at hlist
  | literal _ _ ih => exact ih (by simpa using hlist)

theorem Derives.symbols_ne_nil {symbols : List Symbol} (h : Derives pattern pieces)
    (hlist : .list symbols ∈ pieces) : symbols ≠ [] := by
  unfold Derives at h
  split at h
  · simp [h] at hlist
  · exact h.symbols_ne_nil hlist

end Grammar

end NameGlob
