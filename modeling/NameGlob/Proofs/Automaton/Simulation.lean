import NameGlob.Automaton.Run
import NameGlob.Proofs.Automaton.Frontier
import NameGlob.Proofs.Automaton.Path

/-!
# Simulation of automata

While the frontier is drained, the positions that it holds are those to which moves without a character
lead, and each position that was processed has passed on what it leads to. Once nothing is left to be
processed, the current frontier is closed under such moves and the next one holds what one character
leads to. So a text is accepted exactly when a path leads to the accepting position.

## Main definitions

- `Automaton.Draining` — the invariant of draining a frontier
- `Automaton.Ready` — the scratch space between two characters
- `Automaton.runOn` — decides a sequence of characters
-/

namespace NameGlob

theorem Frontier.Grows.congr {f f' : Frontier} {pos size : Nat} {added added' : Nat → Prop}
    (h : f.Grows f' pos size added) (hiff : ∀ q, added q ↔ added' q) :
    f.Grows f' pos size added' := by
  have heq : added = added' := funext fun q => propext (hiff q)
  rwa [heq] at h

namespace Automaton

open Relation

variable {a : Automaton} {pos p q : Nat} {c? : Option CodePoint} {text : List CodePoint}
  {start : Nat → Prop} {s s' : Scratch}

/-- Following the element at a position adds what the moves from it lead to. -/
theorem grows_visit (hcurrent : s.current.Valid pos a.size) (hnext : s.next.Valid (pos + 1) a.size) :
    s.current.Grows (a.visit pos c? p s).current pos a.size (a.Skips p) ∧
      s.next.Grows (a.visit pos c? p s).next (pos + 1) a.size
        fun q => ∃ c ∈ c?, a.Takes c p q := by
  unfold visit
  split
  · -- the accepting position, from which no move leads on
    rename_i hnone
    refine ⟨hcurrent.grows_self.congr fun q => ?_, hnext.grows_self.congr fun q => ?_⟩
    · simp [Skips, hnone]
    · simp [Takes, hnone]
  · -- a star is skipped, and it takes any character without a move
    rename_i hstar
    have hlt := lt_size_of_getElem? hstar
    have hskips : ∀ q, q = p + 1 ↔ a.Skips p q := by simp [Skips, hstar]
    dsimp only
    split
    · rename_i hsome
      obtain ⟨c, rfl⟩ := Option.isSome_iff_exists.mp hsome
      refine ⟨(hcurrent.grows_add hlt).congr hskips,
        (hnext.grows_add (Nat.le_of_lt hlt)).congr fun q => ?_⟩
      simp [Takes, hstar, admits]
    · rename_i hnone
      refine ⟨(hcurrent.grows_add hlt).congr hskips, hnext.grows_self.congr fun q => ?_⟩
      simp [Option.not_isSome_iff_eq_none.mp hnone]
  · -- any other element is moved over when it admits the character
    rename_i e hne helement
    have hlt := lt_size_of_getElem? helement
    have hskips : ∀ q, False ↔ a.Skips p q := by
      intro q
      simp only [Skips, helement, Option.some_inj, false_iff, not_and]
      exact fun he => absurd he hne
    split
    · rename_i hadmits
      obtain ⟨c, rfl, hc⟩ := (Option.any_eq_true _ _).mp hadmits
      refine ⟨hcurrent.grows_self.congr hskips, (hnext.grows_add hlt).congr fun q => ?_⟩
      have hother : ¬e = .anySequence := hne
      simp [Takes, helement, hother, hc]
    · rename_i hrefused
      have hrefuses : ∀ c ∈ c?, a.admits e c ≠ true :=
        fun c hc hadmits => hrefused ((Option.any_eq_true _ _).mpr ⟨c, hc, hadmits⟩)
      refine ⟨hcurrent.grows_self.congr hskips, hnext.grows_self.congr fun q => ?_⟩
      rw [false_iff]
      rintro ⟨c, hc, ⟨hstar, -⟩ | ⟨e', he', hadmits, -⟩⟩
      · exact hne (Option.some_inj.mp (helement.symm.trans hstar))
      · obtain rfl := Option.some_inj.mp (helement.symm.trans he')
        exact hrefuses c hc hadmits

/-- The frontier after `pos` characters is being drained. It held the positions of `start` at first, and
the next character is `c?` in folded form, if there is one. -/
structure Draining (a : Automaton) (pos : Nat) (c? : Option CodePoint) (start : Nat → Prop)
    (s : Scratch) : Prop where
  current : s.current.Valid pos a.size
  next : s.next.Valid (pos + 1) a.size
  started : ∀ p, start p → s.current.reached p pos = true
  /-- Every position is reached from `start` without a character. -/
  sound : ∀ q ≤ a.size, s.current.reached q pos = true → ∃ p, start p ∧ ReflTransGen a.Skips p q
  /-- A position that was processed has passed on what it leads to. -/
  closed : ∀ p < a.size, s.current.reached p pos = true → p ∉ s.current.stack →
    (∀ q, a.Skips p q → s.current.reached q pos = true) ∧
      ∀ q, (∃ c ∈ c?, a.Takes c p q) → s.next.reached q (pos + 1) = true
  /-- Every position of the next frontier is reached with the next character. -/
  next_sound : ∀ q ≤ a.size, s.next.reached q (pos + 1) = true →
    ∃ p, s.current.reached p pos = true ∧ ∃ c ∈ c?, a.Takes c p q
  /-- Nothing of the next frontier is processed yet. -/
  next_pending : ∀ q < a.size, s.next.reached q (pos + 1) = true → q ∈ s.next.stack

/-- Processing one position keeps the invariant. -/
theorem Draining.step (h : a.Draining pos c? start s) (hstep : a.step? pos c? s = some s') :
    a.Draining pos c? start s' := by
  unfold step? at hstep
  split at hstep
  · simp at hstep
  · rename_i p rest hstack
    obtain rfl := Option.some.inj hstep
    obtain ⟨hlt, hreached⟩ := h.current.pending p (by simp [hstack])
    obtain ⟨hcurrent, hnext⟩ :=
      @grows_visit a pos p c? { s with current := { s.current with stack := rest } }
        (h.current.pop hstack) h.next
    constructor
    case current => exact hcurrent.valid
    case next => exact hnext.valid
    case started =>
      intro q hq
      exact (hcurrent.reached_iff q).mpr (.inl (h.started q hq))
    case sound =>
      intro q hq hreached'
      rcases (hcurrent.reached_iff q).mp hreached' with hold | hskip
      · exact h.sound q hq hold
      · obtain ⟨r, hr, hpath⟩ := h.sound p (Nat.le_of_lt hlt) hreached
        exact ⟨r, hr, hpath.tail hskip⟩
    case closed =>
      intro q hq hreached' hpending
      by_cases hqp : q = p
      · -- the position that was just processed
        subst hqp
        exact ⟨fun r hr => (hcurrent.reached_iff r).mpr (.inr hr),
          fun r hr => (hnext.reached_iff r).mpr (.inr hr)⟩
      · have hgone : q ∉ s.current.stack := by
          intro hmem
          rw [hstack, List.mem_cons] at hmem
          exact hpending ((hcurrent.pending_iff q).mpr (.inl (hmem.resolve_left hqp)))
        by_cases hold : s.current.reached q pos = true
        · obtain ⟨hskips, htakes⟩ := h.closed q hq hold hgone
          exact ⟨fun r hr => (hcurrent.reached_iff r).mpr (.inl (hskips r hr)),
            fun r hr => (hnext.reached_iff r).mpr (.inl (htakes r hr))⟩
        · -- a new position is still to be processed
          have hskip := ((hcurrent.reached_iff q).mp hreached').resolve_left hold
          refine absurd ?_ hpending
          exact (hcurrent.pending_iff q).mpr (.inr ⟨hskip, hq, Bool.eq_false_iff.mpr hold⟩)
    case next_sound =>
      intro q hq hreached'
      rcases (hnext.reached_iff q).mp hreached' with hold | htakes
      · obtain ⟨r, hr, htakes⟩ := h.next_sound q hq hold
        exact ⟨r, (hcurrent.reached_iff r).mpr (.inl hr), htakes⟩
      · exact ⟨p, (hcurrent.reached_iff p).mpr (.inl hreached), htakes⟩
    case next_pending =>
      intro q hq hreached'
      rw [hnext.pending_iff q]
      by_cases hold : s.next.reached q (pos + 1) = true
      · exact .inl (h.next_pending q hq hold)
      · have htakes := ((hnext.reached_iff q).mp hreached').resolve_left hold
        exact .inr ⟨htakes, hq, Bool.eq_false_iff.mpr hold⟩

/-- Draining keeps the invariant and leaves nothing to be processed. -/
theorem draining_drain (h : a.Draining pos c? start s) :
    a.Draining pos c? start (a.drain pos c? s) ∧ (a.drain pos c? s).current.stack = [] := by
  induction s using drain.induct a pos c? with
  | case1 s hstep =>
    rw [drain, hstep]
    refine ⟨h, ?_⟩
    unfold step? at hstep
    split at hstep
    · assumption
    · simp at hstep
  | case2 s s' hstep ih =>
    rw [drain, hstep]
    exact ih (h.step hstep)

/-- A drained frontier holds what moves without a character lead to. -/
theorem Draining.current_iff (h : a.Draining pos c? start s) (hstack : s.current.stack = [])
    (hq : q ≤ a.size) :
    s.current.reached q pos = true ↔ ∃ p, start p ∧ ReflTransGen a.Skips p q := by
  refine ⟨h.sound q hq, ?_⟩
  rintro ⟨p, hp, hpath⟩
  -- the empty stack makes the reached positions closed under skips
  induction hpath with
  | refl => exact h.started p hp
  | @tail q r _ move ih =>
    have hlt := move.lt_size
    exact (h.closed q hlt (ih (Nat.le_of_lt hlt)) (by simp [hstack])).1 r move

/-- Once the current frontier is drained, the next one holds what the next character leads to. -/
theorem Draining.next_iff (h : a.Draining pos c? start s) (hstack : s.current.stack = [])
    (hq : q ≤ a.size) :
    s.next.reached q (pos + 1) = true ↔
      ∃ p, start p ∧ ∃ r, ReflTransGen a.Skips p r ∧ ∃ c ∈ c?, a.Takes c r q := by
  constructor
  · intro hreached
    obtain ⟨r, hr, c, hc, move⟩ := h.next_sound q hq hreached
    obtain ⟨p, hp, hpath⟩ := (h.current_iff hstack (Nat.le_of_lt move.lt_size)).mp hr
    exact ⟨p, hp, r, hpath, c, hc, move⟩
  · rintro ⟨p, hp, r, hpath, c, hc, move⟩
    have hlt := move.lt_size
    have hr := (h.current_iff hstack (Nat.le_of_lt hlt)).mpr ⟨p, hp, hpath⟩
    exact (h.closed r hlt hr (by simp [hstack])).2 q ⟨c, hc, move⟩

/-- The scratch space between two characters, after `pos` characters. -/
structure Ready (a : Automaton) (pos : Nat) (s : Scratch) : Prop where
  current : s.current.Valid pos a.size
  pending : ∀ p < a.size, s.current.reached p pos = true → p ∈ s.current.stack
  next : s.next.Idle (pos + 1) a.size

theorem Ready.draining (h : a.Ready pos s) (c? : Option CodePoint) :
    a.Draining pos c? (fun p => p ≤ a.size ∧ s.current.reached p pos = true) s where
  current := h.current
  next := h.next.valid
  started p hp := hp.2
  sound q hq hreached := ⟨q, ⟨hq, hreached⟩, .refl⟩
  closed p hp hreached hgone := absurd (h.pending p hp hreached) hgone
  next_sound q hq hreached := by simp [h.next.not_reached hq] at hreached
  next_pending q hq hreached := by simp [h.next.not_reached (Nat.le_of_lt hq)] at hreached

theorem Draining.ready_swap (h : a.Draining pos c? start s) (hstack : s.current.stack = []) :
    a.Ready (pos + 1) s.swap where
  current := h.next
  pending := h.next_pending
  next := (h.current.idle_succ hstack).mono (Nat.le_succ (pos + 1))

/-- A text is accepted exactly when it leads from a position of the frontier to the accepting one. -/
theorem read_iff (h : a.Ready pos s) :
    (a.read pos text s).1 = true ↔
      ∃ p, (p ≤ a.size ∧ s.current.reached p pos = true) ∧ a.AcceptsFrom p text := by
  induction text generalizing pos s with
  | nil =>
    obtain ⟨hdrained, hstack⟩ := draining_drain (h.draining none)
    simp only [read, acceptsFrom_nil_iff]
    exact hdrained.current_iff hstack (Nat.le_refl a.size)
  | cons c rest ih =>
    rw [read]
    split
    · -- only the accepting position is left, and no character leads on from it
      rename_i hempty
      rw [List.isEmpty_iff] at hempty
      simp only [Bool.false_eq_true, false_iff]
      rintro ⟨p, ⟨hp, hreached⟩, haccepts⟩
      rcases Nat.lt_or_eq_of_le hp with hlt | rfl
      · have hmem := h.pending p hlt hreached
        simp [hempty] at hmem
      · simp at haccepts
    · obtain ⟨hdrained, hstack⟩ := draining_drain (h.draining (some (a.rule.fold c)))
      rw [ih (hdrained.ready_swap hstack)]
      constructor
      · rintro ⟨q, ⟨hq, hreached⟩, haccepts⟩
        obtain ⟨p, hp, r, hpath, folded, hfolded, move⟩ := (hdrained.next_iff hstack hq).mp hreached
        rw [← Option.some_inj.mp hfolded] at move
        exact ⟨p, hp, acceptsFrom_cons_iff.mpr ⟨r, hpath, q, move, haccepts⟩⟩
      · rintro ⟨p, hp, haccepts⟩
        obtain ⟨r, hpath, q, move, haccepts⟩ := acceptsFrom_cons_iff.mp haccepts
        refine ⟨q, ⟨move.le_size, ?_⟩, haccepts⟩
        exact (hdrained.next_iff hstack move.le_size).mpr ⟨p, hp, r, hpath, _, rfl, move⟩

theorem stamps_size_visit :
    (a.visit pos c? p s).current.stamps.size = s.current.stamps.size ∧
      (a.visit pos c? p s).next.stamps.size = s.next.stamps.size := by
  unfold visit
  split
  · exact ⟨rfl, rfl⟩
  · dsimp only
    split <;> simp
  · split <;> simp

theorem balanced_drain (h : s.Balanced) : (a.drain pos c? s).Balanced := by
  induction s using drain.induct a pos c? with
  | case1 s hstep =>
    rw [drain, hstep]
    exact h
  | case2 s s' hstep ih =>
    rw [drain, hstep]
    refine ih ?_
    unfold step? at hstep
    split at hstep
    · simp at hstep
    · obtain rfl := Option.some.inj hstep
      unfold Scratch.Balanced
      rw [stamps_size_visit.1, stamps_size_visit.2]
      exact h

theorem balanced_read (h : s.Balanced) : (a.read pos text s).2.Balanced := by
  induction text generalizing pos s with
  | nil => exact balanced_drain h
  | cons c rest ih =>
    rw [read]
    split
    · exact h
    · exact ih (balanced_drain h).swap

/-- Decides a sequence of characters with scratch space that earlier matches may have used. -/
def runOn (a : Automaton) (text : List CodePoint) (s : Scratch) : Bool × Scratch :=
  let s := s.reset a.size
  a.read 0 text { s with current := s.current.add 0 0 a.size }

theorem Ready.of_reset (h : s.Balanced) :
    let cleared := s.reset a.size
    let begun : Scratch := { cleared with current := cleared.current.add 0 0 a.size }
    a.Ready 0 begun ∧ ∀ p ≤ a.size, begun.current.reached p 0 = true ↔ p = 0 := by
  obtain ⟨hcurrent, hnext⟩ := h.idle_reset a.size
  have hgrows := hcurrent.valid.grows_add (Nat.zero_le a.size)
  have hreached : ∀ p ≤ a.size,
      ((s.reset a.size).current.add 0 0 a.size).reached p 0 = true ↔ p = 0 := by
    intro p hp
    rw [hgrows.reached_iff, hcurrent.not_reached hp]
    simp
  refine ⟨⟨hgrows.valid, ?_, hnext.mono (Nat.zero_le 1)⟩, hreached⟩
  intro p hp hp0
  have hzero := (hreached p (Nat.le_of_lt hp)).mp hp0
  exact (hgrows.pending_iff p).mpr (.inr ⟨hzero, hp, hcurrent.not_reached (Nat.le_of_lt hp)⟩)

/-- A text is accepted exactly when a path leads from the first position to the accepting one, whatever
the scratch space was used for. -/
theorem runOn_iff (h : s.Balanced) : (a.runOn text s).1 = true ↔ a.AcceptsFrom 0 text := by
  obtain ⟨hready, hreached⟩ := Ready.of_reset (a := a) h
  rw [runOn, read_iff hready]
  constructor
  · rintro ⟨p, ⟨hp, hp0⟩, haccepts⟩
    rwa [(hreached p hp).mp hp0] at haccepts
  · intro haccepts
    exact ⟨0, ⟨Nat.zero_le _, (hreached 0 (Nat.zero_le _)).mpr rfl⟩, haccepts⟩

theorem balanced_runOn (h : s.Balanced) : (a.runOn text s).2.Balanced := by
  rw [runOn]
  refine balanced_read ?_
  unfold Scratch.Balanced
  rw [Frontier.stamps_size_add]
  exact h.reset a.size

theorem accepts_iff {bytes : Bytes} :
    a.accepts bytes = true ↔ a.AcceptsFrom 0 (Utf8.codePoints bytes) :=
  runOn_iff Scratch.balanced_fresh

end Automaton

end NameGlob
