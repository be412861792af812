import Mathlib.Logic.Relation
import NameGlob.Automaton.Basic

/-!
# Paths through automata

An automaton accepts the texts that lead from its first position to the accepting one. A path moves over
`*` without a character, stays before `*` with any character, and moves over any other element with a
character that the element admits.
-/

namespace NameGlob.Automaton

open Relation

variable {a b : Automaton} {e : Element} {c : CodePoint} {p q : Nat} {text : List CodePoint}

/-- A move without a character, over a `*`. -/
def Skips (a : Automaton) (p q : Nat) : Prop :=
  a.elements[p]? = some .anySequence ∧ q = p + 1

/-- A move with the folded character `c`: the position stays before a `*`, and it moves over an element
that admits the character. -/
def Takes (a : Automaton) (c : CodePoint) (p q : Nat) : Prop :=
  (a.elements[p]? = some .anySequence ∧ q = p) ∨
    ∃ e, a.elements[p]? = some e ∧ a.admits e c = true ∧ q = p + 1

/-- A text leads from a position to the accepting one. -/
inductive AcceptsFrom (a : Automaton) : Nat → List CodePoint → Prop
  | accept : AcceptsFrom a a.size []
  | skip {p q : Nat} {text : List CodePoint} (move : a.Skips p q) (rest : AcceptsFrom a q text) :
      AcceptsFrom a p text
  | take {p q : Nat} {c : CodePoint} {text : List CodePoint} (move : a.Takes (a.rule.fold c) p q)
      (rest : AcceptsFrom a q text) : AcceptsFrom a p (c :: text)

theorem lt_size_of_getElem? (h : a.elements[p]? = some e) : p < a.size :=
  (Array.getElem?_eq_some_iff.mp h).1

theorem Skips.lt_size (h : a.Skips p q) : p < a.size :=
  lt_size_of_getElem? h.1

theorem Skips.le_size (h : a.Skips p q) : q ≤ a.size := by
  have := h.lt_size
  have := h.2
  omega

theorem Takes.lt_size (h : a.Takes c p q) : p < a.size := by
  rcases h with ⟨h, -⟩ | ⟨e, h, -⟩
  · exact lt_size_of_getElem? h
  · exact lt_size_of_getElem? h

theorem Takes.le_size (h : a.Takes c p q) : q ≤ a.size := by
  have hlt := h.lt_size
  rcases h with ⟨-, rfl⟩ | ⟨e, -, -, rfl⟩
  · exact Nat.le_of_lt hlt
  · exact hlt

theorem AcceptsFrom.of_skips (h : ReflTransGen a.Skips p q) (hq : a.AcceptsFrom q text) :
    a.AcceptsFrom p text := by
  induction h using ReflTransGen.head_induction_on with
  | refl => exact hq
  | head move _ ih => exact .skip move ih

theorem acceptsFrom_nil_iff : a.AcceptsFrom p [] ↔ ReflTransGen a.Skips p a.size := by
  constructor
  · intro h
    generalize htext : ([] : List CodePoint) = text at h
    induction h with
    | accept => exact .refl
    | skip move _ ih => exact .head move (ih htext)
    | take => simp at htext
  · intro h
    exact .of_skips h .accept

/-- A path begins with moves without a character and one move with the first character. -/
theorem acceptsFrom_cons_iff :
    a.AcceptsFrom p (c :: text) ↔
      ∃ q, ReflTransGen a.Skips p q ∧ ∃ r, a.Takes (a.rule.fold c) q r ∧ a.AcceptsFrom r text := by
  constructor
  · intro h
    generalize htext : c :: text = whole at h
    induction h with
    | accept => simp at htext
    | skip move _ ih =>
      obtain ⟨q, hskips, hrest⟩ := ih htext
      exact ⟨q, .head move hskips, hrest⟩
    | take move rest =>
      obtain ⟨rfl, rfl⟩ := List.cons_eq_cons.mp htext
      exact ⟨_, .refl, _, move, rest⟩
  · rintro ⟨q, hskips, r, move, rest⟩
    exact .of_skips hskips (.take move rest)

@[simp] theorem acceptsFrom_size_iff : a.AcceptsFrom a.size text ↔ text = [] := by
  constructor
  · intro h
    generalize hp : a.size = p at h
    cases h with
    | accept => rfl
    | skip move _ => exact absurd hp (Nat.ne_of_gt move.lt_size)
    | take move _ => exact absurd hp (Nat.ne_of_gt move.lt_size)
  · rintro rfl
    exact .accept

/-- An element takes a segment of a text: `*` any segment, every other element one character. -/
def Covers (a : Automaton) (e : Element) (segment : List CodePoint) : Prop :=
  e = .anySequence ∨ ∃ c, segment = [c] ∧ a.admits e (a.rule.fold c) = true

/-- The automaton `b` has the elements of `a`, with the same meaning, and `e` behind them. -/
structure Extends (a b : Automaton) (e : Element) : Prop where
  rule : b.rule = a.rule
  elements : b.elements = a.elements.push e
  /-- The other elements admit the same characters. -/
  admits : ∀ (p : Nat) (e' : Element), a.elements[p]? = some e' → ∀ c, b.admits e' c = a.admits e' c

namespace Extends

theorem size (h : a.Extends b e) : b.size = a.size + 1 := by
  simp [Automaton.size, h.elements]

theorem getElem?_of_lt (h : a.Extends b e) (hp : p < a.size) : b.elements[p]? = a.elements[p]? := by
  have hne : p ≠ a.elements.size := Nat.ne_of_lt hp
  rw [h.elements, Array.getElem?_push, if_neg hne]

theorem getElem?_size (h : a.Extends b e) : b.elements[a.size]? = some e := by
  rw [h.elements, Automaton.size, Array.getElem?_push_size]

theorem skips_iff (h : a.Extends b e) (hp : p < a.size) : b.Skips p q ↔ a.Skips p q := by
  rw [Skips, Skips, h.getElem?_of_lt hp]

theorem takes_iff (h : a.Extends b e) (hp : p < a.size) : b.Takes c p q ↔ a.Takes c p q := by
  unfold Takes
  rw [h.getElem?_of_lt hp]
  refine or_congr_right (exists_congr fun e' => and_congr_right fun he' => ?_)
  rw [h.admits p e' he']

theorem acceptsFrom_size_of_covers (h : a.Extends b e) (hcovers : b.Covers e text) :
    b.AcceptsFrom a.size text := by
  have hlast := h.getElem?_size
  have haccept : b.AcceptsFrom (a.size + 1) [] := h.size ▸ .accept
  rcases hcovers with rfl | ⟨c, rfl, hadmits⟩
  · -- a star stays in its place for each character and is skipped in the end
    induction text with
    | nil => exact .skip ⟨hlast, rfl⟩ haccept
    | cons c rest ih => exact .take (.inl ⟨hlast, rfl⟩) ih
  · exact .take (.inr ⟨e, hlast, hadmits, rfl⟩) haccept

/-- One more element takes one more segment. -/
theorem acceptsFrom_iff (h : a.Extends b e) (hp : p ≤ a.size) :
    b.AcceptsFrom p text ↔
      ∃ front back, text = front ++ back ∧ a.AcceptsFrom p front ∧ b.Covers e back := by
  constructor
  · intro haccepts
    -- the induction is on the path in `b`; it leaves `a` when it comes to the added element
    induction haccepts with
    | accept => exact absurd h.size (by omega)
    | @skip p q text move rest ih =>
      rcases Nat.lt_or_eq_of_le hp with hlt | rfl
      · have hmove := (h.skips_iff hlt).mp move
        obtain ⟨front, back, rfl, hfront, hback⟩ := ih hmove.le_size
        exact ⟨front, back, rfl, .skip hmove hfront, hback⟩
      · -- the move leads over the added element, which is a `*`
        have he : e = .anySequence := Option.some_inj.mp (h.getElem?_size.symm.trans move.1)
        exact ⟨[], text, rfl, .accept, .inl he⟩
    | @take p q c text move rest ih =>
      rcases Nat.lt_or_eq_of_le hp with hlt | rfl
      · have hmove := (h.takes_iff hlt).mp move
        obtain ⟨front, back, rfl, hfront, hback⟩ := ih hmove.le_size
        exact ⟨c :: front, back, rfl, .take (h.rule ▸ hmove) hfront, hback⟩
      · refine ⟨[], c :: text, rfl, .accept, ?_⟩
        rcases move with ⟨hstar, -⟩ | ⟨e', he', hadmits, rfl⟩
        · exact .inl (Option.some_inj.mp (h.getElem?_size.symm.trans hstar))
        · obtain rfl := Option.some_inj.mp (h.getElem?_size.symm.trans he')
          rw [← h.size, acceptsFrom_size_iff] at rest
          exact .inr ⟨c, by rw [rest], hadmits⟩
  · rintro ⟨front, back, rfl, hfront, hback⟩
    induction hfront with
    | accept => exact h.acceptsFrom_size_of_covers hback
    | skip move _ ih => exact .skip ((h.skips_iff move.lt_size).mpr move) (ih move.le_size)
    | take move _ ih =>
      exact .take ((h.takes_iff move.lt_size).mpr (h.rule ▸ move)) (ih move.le_size)

end Extends

end NameGlob.Automaton
