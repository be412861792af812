import Mathlib.Data.List.TakeWhile
import NameGlob.Pattern.Reading
import NameGlob.Proofs.Pattern.Grammar

/-!
# Patterns are read by their grammar

The reading of a pattern makes the events of its pieces up to the first range that ends below its
beginning, and it ends at the first defect of the pieces.
-/

namespace NameGlob

open Grammar

namespace Symbol

variable {c d : CodePoint} {escape offset : Nat} {chars : List (CodePoint × Nat)}

theorem pair_quoted (hquote : c = backtick) :
    pair ((c, escape) :: (d, offset) :: chars) = ⟨d, true, offset⟩ :: pair chars := by
  rw [pair, if_pos hquote]

theorem pair_plain (hplain : c ≠ backtick) :
    pair ((c, offset) :: chars) = ⟨c, false, offset⟩ :: pair chars := by
  cases chars with
  | nil => simp [pair, hplain]
  | cons char chars => rw [pair, if_neg hplain]

theorem pair_dangling (hquote : c = backtick) : pair [(c, offset)] = [⟨backtick, true, offset⟩] := by
  simp [pair, hquote]

end Symbol

/-- The members read are those in front of the first inverted range. -/
structure MemberReading.Follows (r : MemberReading) (entries : List (Member × Nat)) : Prop where
  members : r.members = (entries.takeWhile fun entry => !entry.1.event.isInverted).map Prod.fst
  inverted : r.inverted = (entries.find? fun entry => entry.1.event.isInverted).map Prod.snd

/-- The events made are those in front of the first inverted range, and the fault is the first defect. -/
structure Reading.Follows (r : Reading) (pieces : List Piece) : Prop where
  events : r.events = (pieces.flatMap Piece.events).takeWhile (!·.isInverted)
  fault : r.fault.map (fun f => ⟨f.cause, f.offset⟩) = (pieces.flatMap Piece.defects).head?

namespace MemberReading

variable {r : MemberReading} {entries : List (Member × Nat)} {m : Member} {offset : Nat}

theorem Follows.cons (h : r.Follows entries) (hm : m.event.isInverted = false) :
    (r.cons m).Follows ((m, offset) :: entries) where
  members := by simp [MemberReading.cons, hm, h.members]
  inverted := by simp [MemberReading.cons, hm, h.inverted]

theorem follows_inverted (hm : m.event.isInverted = true) :
    Follows ⟨[], some offset⟩ ((m, offset) :: entries) where
  members := by simp [hm]
  inverted := by simp [hm]

end MemberReading

namespace Reading

variable {r : Reading} {item : Item} {piece : Piece} {pieces : List Piece}

theorem events_cons : (r.cons item).events = item.events ++ r.events := by
  simp [cons, events]

theorem Follows.cons (h : r.Follows pieces) (hevents : item.events = piece.events)
    (hdefects : piece.defects = []) : (r.cons item).Follows (piece :: pieces) where
  events := by
    rw [events_cons, h.events, hevents, List.flatMap_cons, List.takeWhile_append_of_pos]
    simpa using Piece.isInverted_eq_false hdefects
  fault := by
    rw [List.flatMap_cons, hdefects, List.nil_append]
    exact h.fault

end Reading

namespace Pattern

theorem readMembers_single {s : Symbol} {rest : List Symbol}
    (h : ∀ dash hi more, rest = dash :: hi :: more → dash.isPlain 0x2D = false) :
    readMembers (s :: rest) = (readMembers rest).cons (.single s.char) := by
  match rest with
  | [] => rfl
  | [_] => rfl
  | dash :: hi :: more => rw [readMembers, h dash hi more rfl, if_neg Bool.false_ne_true]

theorem readMembers_drop_follows (symbols : List Symbol) (i : Nat) :
    (readMembers (symbols.drop i)).Follows (entriesFrom symbols i) := by
  fun_induction entriesFrom symbols i with
  | case1 i h _ hrange ih =>
    obtain ⟨hlt, hdash⟩ := hrange
    rw [List.drop_eq_getElem_cons h, List.drop_eq_getElem_cons (Nat.lt_of_succ_lt hlt),
      List.drop_eq_getElem_cons hlt, readMembers, if_pos hdash]
    split
    · rename_i hlo
      exact MemberReading.follows_inverted (decide_eq_true hlo)
    · rename_i hlo
      exact ih.cons (decide_eq_false hlo)
  | case2 i h _ hrange ih =>
    rw [List.drop_eq_getElem_cons h, readMembers_single]
    · exact ih.cons rfl
    · -- two symbols behind this one are within the list, so the grammar refused a range for the dash
      intro dash hi more hrest
      have hlt : i + 2 < symbols.length := by
        have := congrArg List.length hrest
        simp only [List.length_drop, List.length_cons] at this
        omega
      rw [List.drop_eq_getElem_cons (Nat.lt_of_succ_lt hlt)] at hrest
      obtain ⟨rfl, -⟩ := List.cons.inj hrest
      exact Bool.eq_false_iff.mpr fun hdash => hrange ⟨hlt, hdash⟩
  | case3 i h =>
    rw [List.drop_eq_nil_of_le (Nat.le_of_not_lt h)]
    exact ⟨rfl, rfl⟩

theorem readMembers_follows (symbols : List Symbol) :
    (readMembers symbols).Follows (entriesFrom symbols 0) :=
  readMembers_drop_follows symbols 0

variable {chars rest : List (CodePoint × Nat)} {symbols before : List Symbol} {pieces : List Piece}
  {first : Bool} {opening : Nat}

/-- What a bracket list with these characters and the symbols behind it are read as. -/
def readClosed (symbols rest : List Symbol) : Reading :=
  match (readMembers symbols).inverted with
  | some offset => .fail (.invertedRange offset (readMembers symbols).members)
  | none => (readSymbols none rest).cons (.oneOf (readMembers symbols).members)

/-- A plain `]` closes a list unless it is directly behind the `[`. -/
theorem readSymbols_close {list : OpenList} {s : Symbol} {rest : List Symbol}
    (h : (s.isPlain 0x5D && !list.symbols.isEmpty) = true) :
    readSymbols (some list) (s :: rest) = readClosed list.symbols.reverse rest := by
  rw [readSymbols, if_pos h]
  rfl

theorem readClosed_of_sound {rest : List Symbol} (h : (readMembers symbols).inverted = none) :
    readClosed symbols rest = (readSymbols none rest).cons (.oneOf (readMembers symbols).members) := by
  rw [readClosed, h]

theorem readSymbols_open {rest : List Symbol} :
    readSymbols none (⟨0x5B, false, opening⟩ :: rest) = readSymbols (some ⟨opening, []⟩) rest := by
  rw [readSymbols, if_pos (by simp [Symbol.isPlain])]

theorem readSymbols_quoted {c : CodePoint} {offset : Nat} {rest : List Symbol} :
    readSymbols (some ⟨opening, before⟩) (⟨c, true, offset⟩ :: rest) =
      readSymbols (some ⟨opening, ⟨c, true, offset⟩ :: before⟩) rest := by
  rw [readSymbols]
  simp [Symbol.isPlain]

theorem readSymbols_plain {c : CodePoint} {offset : Nat} {rest : List Symbol}
    (hopen : c = 0x5D → before.isEmpty = true) :
    readSymbols (some ⟨opening, before⟩) (⟨c, false, offset⟩ :: rest) =
      readSymbols (some ⟨opening, ⟨c, false, offset⟩ :: before⟩) rest := by
  rw [readSymbols, if_neg]
  simpa [Symbol.isPlain] using hopen

/-- The characters of a closed list are read up to the `]` that closes it. -/
theorem readSymbols_closed (h : ClosedList first chars symbols rest)
    (hfirst : before.isEmpty = first) :
    readSymbols (some ⟨opening, before⟩) (Symbol.pair chars) =
      readClosed (before.reverse ++ symbols) (Symbol.pair rest) := by
  induction h generalizing before with
  | close hclose =>
    rw [Symbol.pair_plain (by simp [hclose, backtick]), readSymbols_close, List.append_nil]
    simp [Symbol.isPlain, hclose, hfirst]
  | quoted hquote _ ih =>
    rw [Symbol.pair_quoted hquote, readSymbols_quoted, ih (by rfl)]
    simp
  | plain hquote hopen _ ih =>
    rw [Symbol.pair_plain hquote, readSymbols_plain (by rwa [hfirst]), ih (by rfl)]
    simp

/-- When nothing closes a list, the reading fails at its `[`. -/
theorem readSymbols_unclosed (hnone : ∀ symbols rest, ¬ ClosedList first chars symbols rest)
    (hfirst : before.isEmpty = first) :
    readSymbols (some ⟨opening, before⟩) (Symbol.pair chars) = .fail (.unclosedList opening) := by
  induction hlength : chars.length using Nat.strongRecOn generalizing chars before first with
  | ind n ih =>
    subst hlength
    cases chars with
    | nil => rfl
    | cons char chars =>
      obtain ⟨c, offset⟩ := char
      by_cases hquote : c = backtick
      · cases chars with
        | nil =>
          rw [Symbol.pair_dangling hquote, readSymbols_quoted]
          rfl
        | cons char chars =>
          rw [Symbol.pair_quoted hquote, readSymbols_quoted]
          refine ih chars.length (by simp only [List.length_cons]; omega) ?_ (by rfl) rfl
          exact fun symbols rest closed => hnone _ _ (.quoted hquote closed)
      · have hopen : c = 0x5D → first = true := by
          intro hclose
          cases first with
          | true => rfl
          | false => exact absurd (.close hclose) (hnone [] chars)
        rw [Symbol.pair_plain hquote, readSymbols_plain (by rwa [hfirst])]
        refine ih chars.length (by simp) ?_ (by rfl) rfl
        exact fun symbols rest closed => hnone _ _ (.plain hquote hopen closed)

theorem readClosed_follows (symbols : List Symbol) {rest : List Symbol}
    (h : (readSymbols none rest).Follows pieces) :
    (readClosed symbols rest).Follows (.list symbols :: pieces) := by
  obtain ⟨hmembers, hinverted⟩ := readMembers_follows symbols
  rw [readClosed, hinverted]
  cases hfind : (entriesFrom symbols 0).find? fun entry => entry.1.event.isInverted with
  | none =>
    have hsound : ∀ entry ∈ entriesFrom symbols 0, entry.1.event.isInverted = false := by
      simpa using hfind
    refine h.cons ?_ ?_
    · rw [Item.events, hmembers, List.takeWhile_eq_self_iff.mpr (by simpa using hsound), List.map_map]
      rfl
    · simpa [Piece.defects] using hsound
  | some entry =>
    -- both sides stop at the first inverted entry
    obtain ⟨hentry, front, back, hsplit, hfront⟩ := List.find?_eq_some_iff_append.mp hfind
    have hread : (readMembers symbols).members = front.map Prod.fst := by
      rw [hmembers, hsplit, List.takeWhile_append_of_pos hfront,
        List.takeWhile_cons_of_neg (by simp [hentry]), List.append_nil]
    have hevents : ∀ e ∈ front.map (fun entry => entry.1.event), (!e.isInverted) = true :=
      List.forall_mem_map.mpr hfront
    constructor
    · rw [List.flatMap_cons, Piece.events, hsplit]
      simp only [List.map_append, List.map_cons, List.cons_append, List.append_assoc]
      rw [List.takeWhile_cons_of_pos rfl, List.takeWhile_append_of_pos hevents,
        List.takeWhile_cons_of_neg (by simp [hentry]), List.append_nil]
      simp [Reading.events, Reading.fail, Fault.events, hread]
    · simp [Reading.fail, Fault.cause, Fault.offset, Piece.defects, hfind]

theorem readSymbols_item_follows {s : Symbol} {rest : List Symbol} {piece : Piece}
    (h : (readSymbols none rest).Follows pieces) (hs : s.isPlain 0x5B = false)
    (hevents : (itemOf s).events = piece.events) (hdefects : piece.defects = []) :
    (readSymbols none (s :: rest)).Follows (piece :: pieces) := by
  rw [readSymbols, if_neg (by simp [hs])]
  exact h.cons hevents hdefects

/-- The symbols of characters are read as the pieces that the characters form. -/
theorem readSymbols_follows (h : Splits chars pieces) :
    (readSymbols none (Symbol.pair chars)).Follows pieces := by
  induction h with
  | nil => exact ⟨rfl, rfl⟩
  | dangling hquote =>
    rw [Symbol.pair_dangling hquote]
    exact readSymbols_item_follows ⟨rfl, rfl⟩ rfl rfl rfl
  | quoted hquote _ ih =>
    rw [Symbol.pair_quoted hquote]
    exact readSymbols_item_follows ih rfl rfl rfl
  | anySequence hstar _ ih =>
    rw [Symbol.pair_plain (by simp [hstar, backtick]), hstar]
    exact readSymbols_item_follows ih rfl rfl rfl
  | anyOne hmark _ ih =>
    rw [Symbol.pair_plain (by simp [hmark, backtick]), hmark]
    exact readSymbols_item_follows ih rfl rfl rfl
  | list hopen closed _ ih =>
    rw [Symbol.pair_plain (by simp [hopen, backtick]), hopen, readSymbols_open,
      readSymbols_closed closed rfl]
    exact readClosed_follows _ ih
  | unclosed hopen hnone =>
    rw [Symbol.pair_plain (by simp [hopen, backtick]), hopen, readSymbols_open,
      readSymbols_unclosed hnone rfl]
    exact ⟨rfl, rfl⟩
  | literal hplain _ ih =>
    simp only [List.mem_cons, List.not_mem_nil, or_false, not_or] at hplain
    obtain ⟨hquote, hstar, hmark, hopen⟩ := hplain
    rw [Symbol.pair_plain hquote]
    refine readSymbols_item_follows ih ?_ ?_ rfl
    · simp [Symbol.isPlain, hopen]
    · simp [itemOf, Symbol.isPlain, hstar, hmark, Item.events, Piece.events]

theorem read_follows {pattern : Bytes} (h : Derives pattern pieces) :
    (read pattern).Follows pieces := by
  unfold Derives at h
  unfold read Symbol.ofPattern
  split at h
  · rename_i halone
    rw [if_pos halone, h]
    exact ⟨rfl, rfl⟩
  · rename_i hother
    rw [if_neg hother]
    exact readSymbols_follows h

/-- A pattern has exactly one sequence of pieces, and the closed lists among them have members. When the
pieces have no defects, the pattern is read to its end and makes their events. Otherwise reading it fails
at the leftmost defect, and what it makes are the events in front of that. -/
theorem parse_by_grammar (pattern : Bytes) (options : Options) :
    ∃ pieces, (∀ others, Derives pattern others ↔ others = pieces) ∧
      (∀ symbols, .list symbols ∈ pieces → symbols ≠ []) ∧
      (pieces.flatMap Piece.defects = [] →
        (∃ items, parse pattern = .ok items ∧
          items.flatMap Item.events = pieces.flatMap Piece.events) ∧
        trace pattern options = .start pattern options :: pieces.flatMap Piece.events ++ [.finish]) ∧
      ∀ d rest, pieces.flatMap Piece.defects = d :: rest →
        (∀ d' ∈ rest, d.offset < d'.offset) ∧
        parse pattern = .error ⟨d.cause, pattern, d.offset⟩ ∧
        trace pattern options = .start pattern options ::
          (pieces.flatMap Piece.events).takeWhile (!·.isInverted) := by
  obtain ⟨pieces, hpieces⟩ := exists_derives_iff pattern
  have hderives := (hpieces pieces).mpr rfl
  obtain ⟨hevents, hfault⟩ := read_follows hderives
  refine ⟨pieces, hpieces, fun symbols => hderives.symbols_ne_nil, ?_, ?_⟩
  · intro hsound
    have hkept : (pieces.flatMap Piece.events).takeWhile (!·.isInverted) =
        pieces.flatMap Piece.events := by
      rw [List.takeWhile_eq_self_iff]
      intro e he
      obtain ⟨piece, hpiece, he⟩ := List.mem_flatMap.mp he
      simp [Piece.isInverted_eq_false (List.flatMap_eq_nil_iff.mp hsound piece hpiece) e he]
    rw [hsound, List.head?_nil] at hfault
    have hread := Option.map_eq_none_iff.mp hfault
    rw [hkept] at hevents
    refine ⟨⟨(read pattern).items, ?_, ?_⟩, ?_⟩
    · simp [parse, hread]
    · simpa [Reading.events, hread] using hevents
    · simp [trace, hread, hevents]
  · intro d rest hdefects
    have hascending := hderives.ascending
    rw [hdefects, List.pairwise_cons] at hascending
    rw [hdefects, List.head?_cons] at hfault
    obtain ⟨fault, hread, hd⟩ := Option.map_eq_some_iff.mp hfault
    refine ⟨hascending.1, ?_, ?_⟩
    · simp [parse, hread, ← hd]
    · simp [trace, hread, hevents]

-- the inverted range wins over the list that is not closed
example : parse (Bytes.ascii "a[]-[x-m][") =
    .error ⟨.invertedRange, Bytes.ascii "a[]-[x-m][", 2⟩ := by decide +kernel

end Pattern

end NameGlob
