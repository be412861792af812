import NameGlob.Proofs.Automaton.Verdict
import NameGlob.Proofs.Pattern.Parsing
import NameGlob.Proofs.Pattern.Wildcards
import NameGlob.Proofs.Text.Splitting

/-!
# Patterns one behind the other

A pattern that is read to its end leaves nothing open behind it, unless its last character is a backtick that
waits for the next one. So a second pattern behind it is read as if it stood alone; only the offsets in it count
from further ahead. The items of the two patterns follow each other, and so do the texts that they accept.
-/

namespace NameGlob

/-- Tells whether the last of the characters is a backtick that quotes the next one: a backtick quotes unless it
is quoted itself. -/
def Mark.endsQuoting (cs : List CodePoint) : Bool :=
  cs.foldl (fun quoting c => !quoting && c == backtick) false

namespace Mark

variable {c d : CodePoint} {cs : List CodePoint}

theorem endsQuoting_quoted (hquote : c = backtick) : endsQuoting (c :: d :: cs) = endsQuoting cs := by
  simp [endsQuoting, hquote]

theorem endsQuoting_plain (hplain : c ≠ backtick) : endsQuoting (c :: cs) = endsQuoting cs := by
  simp [endsQuoting, beq_false_of_ne hplain]

theorem endsQuoting_singleton (c : CodePoint) : endsQuoting [c] = (c == backtick) := by
  simp [endsQuoting]

end Mark

/-- The symbol `n` bytes further behind. -/
def Symbol.shift (n : Nat) (s : Symbol) : Symbol := { s with offset := n + s.offset }

/-- The open list `n` bytes further behind. -/
def OpenList.shift (n : Nat) (list : OpenList) : OpenList :=
  ⟨n + list.offset, list.symbols.map (Symbol.shift n)⟩

/-- The fault `n` bytes further behind. -/
def Fault.shift (n : Nat) : Fault → Fault
  | unclosedList offset => unclosedList (n + offset)
  | invertedRange offset before => invertedRange (n + offset) before

/-- The reading of symbols that stand `n` bytes further behind. -/
def Reading.shift (n : Nat) (r : Reading) : Reading :=
  { r with fault := r.fault.map (Fault.shift n) }

/-- Puts items in front of a reading. -/
def Reading.prepend (items : List Item) (r : Reading) : Reading :=
  { r with items := items ++ r.items }

namespace Fault

variable (n : Nat) (fault : Fault)

@[simp] theorem cause_shift : (fault.shift n).cause = fault.cause := by
  cases fault <;> rfl

@[simp] theorem offset_shift : (fault.shift n).offset = n + fault.offset := by
  cases fault <;> rfl

@[simp] theorem events_shift : (fault.shift n).events = fault.events := by
  cases fault <;> rfl

end Fault

namespace Reading

theorem events_shift (n : Nat) (r : Reading) : (r.shift n).events = r.events := by
  obtain ⟨items, fault⟩ := r
  cases fault <;> simp [shift, events]

theorem events_prepend (items : List Item) (r : Reading) :
    (r.prepend items).events = items.flatMap Item.events ++ r.events := by
  simp [prepend, events]

theorem prepend_cons (item : Item) (items : List Item) (r : Reading) :
    r.prepend (item :: items) = (r.prepend items).cons item := rfl

end Reading

namespace Symbol

variable {n : Nat} {xs ys : List (CodePoint × Nat)}

@[simp] theorem isPlain_shift (s : Symbol) (c : CodePoint) : (s.shift n).isPlain c = s.isPlain c := rfl

theorem locate_append (offset : Nat) (xs ys : List (CodePoint × Nat)) :
    locate offset (xs ++ ys) = locate offset xs ++ locate (offset + (xs.map Prod.snd).sum) ys := by
  induction xs generalizing offset with
  | nil => simp [locate]
  | cons x xs ih =>
    obtain ⟨c, size⟩ := x
    rw [List.cons_append, locate, locate, ih, List.cons_append, List.map_cons, List.sum_cons,
      Nat.add_assoc]

theorem locate_add (n offset : Nat) (xs : List (CodePoint × Nat)) :
    locate (n + offset) xs = (locate offset xs).map (Prod.map id (n + ·)) := by
  induction xs generalizing offset with
  | nil => rfl
  | cons x xs ih =>
    obtain ⟨c, size⟩ := x
    rw [locate, locate, Nat.add_assoc, ih, List.map_cons, Prod.map_apply, id]

theorem pair_map_add (n : Nat) (xs : List (CodePoint × Nat)) :
    pair (xs.map (Prod.map id (n + ·))) = (pair xs).map (shift n) := by
  fun_induction pair xs with
  | case1 => rfl
  | case2 c offset => rfl
  | case3 escape d next rest ih =>
    exact (pair_quoted rfl).trans (congrArg (⟨d, true, n + next⟩ :: ·) ih)
  | case4 c offset d next rest hplain ih =>
    exact (pair_plain hplain).trans (congrArg (⟨c, false, n + offset⟩ :: ·) ih)

/-- Behind characters that end in no quoting backtick the pairing starts anew. -/
theorem pair_append (h : Mark.endsQuoting (xs.map Prod.fst) = false) : pair (xs ++ ys) = pair xs ++ pair ys := by
  fun_induction pair xs with
  | case1 => rfl
  | case2 c offset =>
    rw [List.map_singleton, Mark.endsQuoting_singleton] at h
    rw [List.singleton_append, pair_plain (beq_eq_false_iff_ne.mp h), h, List.singleton_append]
  | case3 escape d next rest ih =>
    rw [List.map_cons, List.map_cons, Mark.endsQuoting_quoted rfl] at h
    rw [List.cons_append, List.cons_append, pair_quoted rfl, ih h, List.cons_append]
  | case4 c offset d next rest hplain ih =>
    rw [List.map_cons, Mark.endsQuoting_plain hplain] at h
    rw [List.cons_append, pair_plain hplain, ih h, List.cons_append]

/-- The symbols of two patterns one behind the other. -/
theorem ofPattern_append {p q : Bytes} (hchars : Utf8.invalid ∉ Utf8.codePoints p)
    (hends : Mark.endsQuoting (Utf8.codePoints p) = false) (halone : q = [0x60] → p = []) :
    ofPattern (p ++ q) = ofPattern p ++ (ofPattern q).map (shift p.length) := by
  by_cases hempty : p = []
  · subst hempty
    have hnone : ofPattern [] = [] := by simp [ofPattern, Utf8.chars, locate, pair]
    have hsame : shift 0 = id := by
      funext s
      simp [shift]
    rw [List.nil_append, hnone, List.nil_append, List.length_nil, hsame, List.map_id]
  · -- then none of the three patterns is the backtick alone, which makes no symbol
    have hp : p ≠ [0x60] := by
      rintro rfl
      exact absurd hends (by decide +kernel)
    have hq : q ≠ [0x60] := fun h => hempty (halone h)
    have hpq : p ++ q ≠ [0x60] := by
      intro h
      rcases List.append_eq_singleton_iff.mp h with ⟨h, -⟩ | ⟨h, -⟩
      · exact hempty h
      · exact hp h
    have hfront : Mark.endsQuoting ((locate 0 (Utf8.chars p)).map Prod.fst) = false := by
      rwa [chars_locate]
    rw [ofPattern, if_neg hpq, ofPattern, if_neg hp, ofPattern, if_neg hq, Utf8.chars_append hchars,
      locate_append, pair_append hfront, Utf8.sum_chars, Nat.add_comm, locate_add, pair_map_add]

end Symbol

namespace Pattern

variable {list? : Option OpenList} {symbols xs ys : List Symbol} {items : List Item}

@[simp] theorem itemOf_shift (n : Nat) (s : Symbol) : itemOf (s.shift n) = itemOf s := rfl

theorem readMembers_shift (n : Nat) (symbols : List Symbol) :
    readMembers (symbols.map (Symbol.shift n)) =
      { readMembers symbols with inverted := (readMembers symbols).inverted.map (n + ·) } := by
  fun_induction readMembers symbols with
  | case1 => rfl
  | case2 lo dash hi rest hdash hlt =>
    simp only [List.map_cons]
    rw [readMembers, if_pos (by simpa using hdash), if_pos (by simpa [Symbol.shift] using hlt)]
    rfl
  | case3 lo dash hi rest hdash hlt ih =>
    simp only [List.map_cons]
    rw [readMembers, if_pos (by simpa using hdash), if_neg (by simpa [Symbol.shift] using hlt), ih]
    rfl
  | case4 lo dash hi rest hdash ih =>
    simp only [List.map_cons] at ih ⊢
    rw [readMembers, if_neg (by simpa using hdash), ih]
    rfl
  | case5 s rest hshort ih =>
    rw [List.map_cons, readMembers_single, ih]
    · rfl
    · intro dash hi more hrest
      obtain ⟨d, ds, rfl, rfl, hds⟩ := List.map_eq_cons_iff.mp hrest
      obtain ⟨e, es, rfl, rfl, rfl⟩ := List.map_eq_cons_iff.mp hds
      exact (hshort d e es rfl).elim

theorem readClosed_shift {n : Nat} {rest : List Symbol}
    (h : readSymbols none (rest.map (Symbol.shift n)) = (readSymbols none rest).shift n) :
    readClosed (symbols.map (Symbol.shift n)) (rest.map (Symbol.shift n)) =
      (readClosed symbols rest).shift n := by
  rw [readClosed, readClosed, readMembers_shift]
  dsimp only
  cases (readMembers symbols).inverted with
  | none => exact congrArg (Reading.cons (.oneOf _)) h
  | some offset => rfl

theorem readClosed_eq_iff {rest : List Symbol} :
    readClosed symbols rest = ⟨items, none⟩ ↔ (readMembers symbols).inverted = none ∧
      ∃ behind, readSymbols none rest = ⟨behind, none⟩ ∧
        items = .oneOf (readMembers symbols).members :: behind := by
  cases hread : (readMembers symbols).inverted with
  | none => rw [readClosed_of_sound hread, Reading.cons_eq_iff, eq_self, true_and]
  | some offset => simp [readClosed, hread, Reading.fail]

/-- The places of symbols matter to the offsets of faults only. -/
theorem readSymbols_shift (n : Nat) (list? : Option OpenList) (symbols : List Symbol) :
    readSymbols (list?.map (OpenList.shift n)) (symbols.map (Symbol.shift n)) =
      (readSymbols list? symbols).shift n := by
  induction symbols generalizing list? with
  | nil => cases list? <;> rfl
  | cons s rest ih =>
    cases list? with
    | none =>
      rw [List.map_cons, Option.map_none, readSymbols, readSymbols, Symbol.isPlain_shift]
      split
      · exact ih (some ⟨s.offset, []⟩)
      · rw [itemOf_shift]
        exact congrArg (Reading.cons (itemOf s)) (ih none)
    | some list =>
      have hsame : ((s.shift n).isPlain 0x5D && !(list.shift n).symbols.isEmpty) =
          (s.isPlain 0x5D && !list.symbols.isEmpty) := by simp [OpenList.shift]
      rw [List.map_cons, Option.map_some]
      by_cases hclose : (s.isPlain 0x5D && !list.symbols.isEmpty) = true
      · have hmembers : (list.shift n).symbols.reverse = list.symbols.reverse.map (Symbol.shift n) :=
          List.map_reverse.symm
        rw [readSymbols_close hclose, readSymbols_close (hsame.trans hclose), hmembers]
        exact readClosed_shift (ih none)
      · rw [readSymbols, readSymbols, hsame, if_neg hclose, if_neg hclose]
        exact ih (some { list with symbols := s :: list.symbols })

/-- Behind symbols that are read without a fault the reading starts anew. -/
theorem readSymbols_append (h : readSymbols list? xs = ⟨items, none⟩) (ys : List Symbol) :
    readSymbols list? (xs ++ ys) = (readSymbols none ys).prepend items := by
  induction xs generalizing list? items with
  | nil =>
    cases list? with
    | none =>
      obtain rfl : [] = items := (Reading.mk.inj h).1
      rfl
    | some list =>
      -- a list that is open at the end is a fault
      cases h
  | cons s rest ih =>
    rw [List.cons_append]
    cases list? with
    | none =>
      rw [readSymbols] at h ⊢
      split at h
      · rename_i hopen
        rw [if_pos hopen]
        exact ih h
      · rename_i hopen
        obtain ⟨behind, hrest, rfl⟩ := Reading.cons_eq_iff.mp h
        rw [if_neg hopen, ih hrest, Reading.prepend_cons]
    | some list =>
      by_cases hclose : (s.isPlain 0x5D && !list.symbols.isEmpty) = true
      · rw [readSymbols_close hclose] at h ⊢
        obtain ⟨hsound, behind, hrest, rfl⟩ := readClosed_eq_iff.mp h
        rw [readClosed_of_sound hsound, ih hrest, Reading.prepend_cons]
      · rw [readSymbols, if_neg hclose] at h ⊢
        exact ih h

variable {p q : Bytes}

/-- A pattern behind one that is read to its end is read as if it stood alone. -/
theorem read_append (h : read p = ⟨items, none⟩) (hchars : Utf8.invalid ∉ Utf8.codePoints p)
    (hends : Mark.endsQuoting (Utf8.codePoints p) = false) (halone : q = [0x60] → p = []) :
    read (p ++ q) = ((read q).shift p.length).prepend items := by
  rw [read] at h
  rw [read, Symbol.ofPattern_append hchars hends halone, readSymbols_append h]
  exact congrArg (Reading.prepend items) (readSymbols_shift p.length none (Symbol.ofPattern q))

theorem parse_prepend_ok {others : List Item}
    (hread : read (p ++ q) = ((read q).shift p.length).prepend items) (h : parse q = .ok others) :
    parse (p ++ q) = .ok (items ++ others) := by
  rw [parse_eq_ok_iff] at h ⊢
  rw [hread, h]
  rfl

theorem parse_prepend_error {e : SyntaxError}
    (hread : read (p ++ q) = ((read q).shift p.length).prepend items) (h : parse q = .error e) :
    parse (p ++ q) = .error ⟨e.cause, p ++ q, p.length + e.offset⟩ := by
  unfold parse at h ⊢
  rw [hread]
  cases hfault : (read q).fault with
  | none => simp [hfault] at h
  | some fault =>
    simp only [hfault, Except.error.injEq] at h
    subst h
    simp [Reading.shift, Reading.prepend, hfault]

/-- The steps of a second pattern are those that it makes alone. -/
theorem trace_prepend (hread : read (p ++ q) = ((read q).shift p.length).prepend items)
    (options : Options) :
    ∃ back, trace q options = .start q options :: back ∧
      trace (p ++ q) options = .start (p ++ q) options :: items.flatMap Item.events ++ back := by
  have hfault : (((read q).shift p.length).prepend items).fault.isNone = (read q).fault.isNone :=
    Option.isNone_map
  refine ⟨_, List.cons_append, ?_⟩
  rw [trace, hread, hfault, Reading.events_prepend, Reading.events_shift]
  simp

/-- The automaton of items and others behind them accepts the texts that can be cut so that the automata of both
accept their part. -/
theorem accepts_append_iff {others : List Item} (hp : parse p = .ok items) (hq : parse q = .ok others)
    (hpq : parse (p ++ q) = .ok (items ++ others)) (rule : CaseRule) (text : Bytes) :
    (Automaton.ofItems rule (items ++ others)).accepts text = true ↔
      ∃ front back, text = front ++ back ∧
        Utf8.codePoints text = Utf8.codePoints front ++ Utf8.codePoints back ∧
        (Automaton.ofItems rule items).accepts front = true ∧
        (Automaton.ofItems rule others).accepts back = true := by
  simp only [Automaton.accepts_ofItems_iff hp, Automaton.accepts_ofItems_iff hq,
    Automaton.accepts_ofItems_iff hpq]
  rw [Item.accepts_append_iff]
  constructor
  · rintro ⟨cs, ds, htext, hcs, hds⟩
    obtain ⟨front, back, rfl, rfl, rfl⟩ := Utf8.exists_append_of_codePoints_eq htext
    exact ⟨front, back, rfl, htext, hcs, hds⟩
  · rintro ⟨front, back, -, htext, hfront, hback⟩
    exact ⟨_, _, htext, hfront, hback⟩

/-- Let a pattern be well-formed UTF-8 that is read to its end and does not end in a backtick that quotes, and let
another stand behind it, which is not a backtick alone. Then the two together make the steps of the first and
those of the second. When the second is read to its end, so are both together, and they accept the texts that
can be cut between two characters so that each pattern accepts its part. When the second has a fault, both
together have the same one, as much further behind as the first is long. -/
theorem append_composes (hparse : parse p = .ok items) (hchars : Utf8.invalid ∉ Utf8.codePoints p)
    (hends : Mark.endsQuoting (Utf8.codePoints p) = false) (halone : q = [0x60] → p = []) :
    (∀ options, ∃ front back, trace p options = .start p options :: front ++ [.finish] ∧
      trace q options = .start q options :: back ∧
      trace (p ++ q) options = .start (p ++ q) options :: front ++ back) ∧
    (∀ others, parse q = .ok others →
      parse (p ++ q) = .ok (items ++ others) ∧
      ∀ options locale, ∃ a b c, Automaton.compile p options locale = .ok a ∧
        Automaton.compile q options locale = .ok b ∧
        Automaton.compile (p ++ q) options locale = .ok c ∧
        ∀ text : Bytes, c.accepts text = true ↔
          ∃ front back, text = front ++ back ∧
            Utf8.codePoints text = Utf8.codePoints front ++ Utf8.codePoints back ∧
            a.accepts front = true ∧ b.accepts back = true) ∧
    ∀ e, parse q = .error e → parse (p ++ q) = .error ⟨e.cause, p ++ q, p.length + e.offset⟩ := by
  have hread := read_append (parse_eq_ok_iff.mp hparse) hchars hends halone
  refine ⟨fun options => ?_, fun others hothers => ?_, fun e => parse_prepend_error hread⟩
  · obtain ⟨back, hback, hboth⟩ := trace_prepend hread options
    exact ⟨_, back, trace_of_parse hparse options, hback, hboth⟩
  · have hboth := parse_prepend_ok hread hothers
    exact ⟨hboth, fun options locale => ⟨_, _, _, Automaton.compile_eq_ok hparse options locale,
      Automaton.compile_eq_ok hothers options locale, Automaton.compile_eq_ok hboth options locale,
      accepts_append_iff hparse hothers hboth (.of options locale)⟩⟩

/-- The pattern of a quoted `*`, a list, `é` and a `*`, and behind it one pattern that begins with a `*` too and
ends in a backtick, and another whose list has an inverted range. -/
theorem append_composes_stars :
    ∃ p, p = Bytes.ascii "`*[x-z]" ++ [0xC3, 0xA9, 0x2A] ∧
      parse p = .ok [.literal 0x2A, .oneOf [.range 0x78 0x7A], .literal 0xE9, .anySequence] ∧
      Utf8.invalid ∉ Utf8.codePoints p ∧ Mark.endsQuoting (Utf8.codePoints p) = false ∧
      (∃ c, Automaton.compile (p ++ Bytes.ascii "*]`") .none .classic = .ok c ∧
        c.accepts (Bytes.ascii "*y" ++ [0xC3, 0xA9] ++ Bytes.ascii "a]b]`") = true) ∧
      parse (p ++ Bytes.ascii "*[z-a]") = .error ⟨.invertedRange, p ++ Bytes.ascii "*[z-a]", 12⟩ := by
  have hparse : parse (Bytes.ascii "`*[x-z]" ++ [0xC3, 0xA9, 0x2A]) =
      .ok [.literal 0x2A, .oneOf [.range 0x78 0x7A], .literal 0xE9, .anySequence] := by decide +kernel
  have hchars : Utf8.invalid ∉ Utf8.codePoints (Bytes.ascii "`*[x-z]" ++ [0xC3, 0xA9, 0x2A]) := by
    decide +kernel
  have hends : Mark.endsQuoting (Utf8.codePoints (Bytes.ascii "`*[x-z]" ++ [0xC3, 0xA9, 0x2A])) = false := by
    decide +kernel
  have hback : parse (Bytes.ascii "*]`") = .ok [.anySequence, .literal 0x5D, .literal 0x60] := by
    decide +kernel
  refine ⟨_, rfl, hparse, hchars, hends, ?_, ?_⟩
  · obtain ⟨a, b, c, ha, hb, hc, haccepts⟩ :=
      ((append_composes hparse hchars hends (by decide)).2.1 _ hback).2 .none .classic
    obtain rfl := Except.ok.inj (ha.symm.trans (Automaton.compile_eq_ok hparse .none .classic))
    obtain rfl := Except.ok.inj (hb.symm.trans (Automaton.compile_eq_ok hback .none .classic))
    refine ⟨c, hc, (haccepts _).mpr ⟨Bytes.ascii "*y" ++ [0xC3, 0xA9] ++ Bytes.ascii "a",
      Bytes.ascii "]b]`", ?_, ?_, ?_, ?_⟩⟩ <;> decide +kernel
  · exact (append_composes hparse hchars hends (by decide)).2.2
      ⟨.invertedRange, Bytes.ascii "*[z-a]", 2⟩ (by decide +kernel)

end Pattern

end NameGlob
