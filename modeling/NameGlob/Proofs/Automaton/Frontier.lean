import NameGlob.Automaton.Scratch

/-!
# Frontiers

A frontier is used for one point of a text at a time. Stamps of earlier points may be left over in it,
but none of a later point, and what is still to be processed was added at the present one.
-/

namespace NameGlob

namespace Frontier

variable {f : Frontier} {p q k pos size : Nat}

theorem reached_iff : f.reached p k = true ↔ f.stamps[p]? = some (some k) := by
  simp [reached]

@[simp] theorem stamps_size_add : (f.add p pos size).stamps.size = f.stamps.size := by
  unfold add
  split
  · split <;> simp
  · rfl

theorem reached_add_iff (h : p < f.stamps.size) :
    (f.add p pos size).reached q k = true ↔
      if q = p then k = pos else f.reached q k = true := by
  simp only [reached_iff, add, dif_pos h]
  split
  · rename_i hstamp
    split
    · subst q
      simp [Array.getElem?_eq_getElem h, hstamp, eq_comm]
    · rfl
  · rw [Array.getElem?_set]
    split
    · subst q
      simp [eq_comm]
    · rename_i hne
      rw [if_neg (Ne.symm hne)]

theorem mem_stack_add_iff (h : p < f.stamps.size) :
    q ∈ (f.add p pos size).stack ↔
      q ∈ f.stack ∨ (q = p ∧ p < size ∧ f.reached p pos = false) := by
  have hreached : f.reached p pos = true ↔ f.stamps[p] = some pos := by
    rw [reached_iff, Array.getElem?_eq_getElem h, Option.some_inj]
  simp only [add, dif_pos h]
  split
  · rename_i hstamp
    simp [hreached.mpr hstamp]
  · rename_i hstamp
    have hfresh : f.reached p pos = false := by
      rw [Bool.eq_false_iff, Ne, hreached]
      exact hstamp
    split
    · rename_i hlt
      simp [hfresh, hlt, or_comm]
    · rename_i hge
      simp [hge]

/-- A frontier that holds positions reached after `pos` characters, for an automaton of `size`
elements. -/
structure Valid (f : Frontier) (pos size : Nat) : Prop where
  /-- There is a stamp for each position, the accepting one included. -/
  room : size < f.stamps.size
  /-- No position bears a stamp of a later point of the text. -/
  past : ∀ p ≤ size, ∀ k, f.reached p k = true → k ≤ pos
  /-- What is to be processed are positions before elements, reached at this point. -/
  pending : ∀ p ∈ f.stack, p < size ∧ f.reached p pos = true
  nodup : f.stack.Nodup

/-- A frontier that waits for positions reached after `pos` characters: it holds none yet, and what it
held before is out of date. -/
structure Idle (f : Frontier) (pos size : Nat) : Prop where
  /-- There is a stamp for each position, the accepting one included. -/
  room : size < f.stamps.size
  /-- All stamps are of earlier points of the text. -/
  past : ∀ p ≤ size, ∀ k, f.reached p k = true → k < pos
  stack_nil : f.stack = []

/-- The frontier `f'` holds the positions of `f` and those that are `added`; of these the ones that are
new, and that do not accept, are to be processed. -/
structure Grows (f f' : Frontier) (pos size : Nat) (added : Nat → Prop) : Prop where
  reached_iff : ∀ q, f'.reached q pos = true ↔ f.reached q pos = true ∨ added q
  pending_iff : ∀ q, q ∈ f'.stack ↔ q ∈ f.stack ∨ (added q ∧ q < size ∧ f.reached q pos = false)
  valid : f'.Valid pos size

theorem Idle.valid (h : f.Idle pos size) : f.Valid pos size where
  room := h.room
  past p hp k hk := Nat.le_of_lt (h.past p hp k hk)
  pending := by simp [h.stack_nil]
  nodup := by simp [h.stack_nil]

theorem Idle.mono (h : f.Idle pos size) (hle : pos ≤ k) : f.Idle k size :=
  ⟨h.room, fun p hp j hj => Nat.lt_of_lt_of_le (h.past p hp j hj) hle, h.stack_nil⟩

theorem Idle.not_reached (h : f.Idle pos size) (hp : p ≤ size) : f.reached p pos = false := by
  rw [Bool.eq_false_iff]
  intro hreached
  exact Nat.lt_irrefl pos (h.past p hp pos hreached)

theorem Valid.idle_succ (h : f.Valid pos size) (hstack : f.stack = []) : f.Idle (pos + 1) size :=
  ⟨h.room, fun p hp k hk => Nat.lt_succ_of_le (h.past p hp k hk), hstack⟩

theorem Valid.grows_self (h : f.Valid pos size) : f.Grows f pos size fun _ => False :=
  ⟨by simp, by simp, h⟩

/-- What a frontier gains when a position is added. -/
theorem Valid.grows_add (h : f.Valid pos size) (hp : p ≤ size) :
    f.Grows (f.add p pos size) pos size (· = p) := by
  have hroom : p < f.stamps.size := Nat.lt_of_le_of_lt hp h.room
  refine ⟨fun q => ?_, fun q => ?_, ?_, ?_, ?_, ?_⟩
  · rw [reached_add_iff hroom]
    split <;> simp [*]
  · rw [mem_stack_add_iff hroom]
    constructor
    · rintro (hq | ⟨rfl, hlt, hfresh⟩)
      · exact .inl hq
      · exact .inr ⟨rfl, hlt, hfresh⟩
    · rintro (hq | ⟨rfl, hlt, hfresh⟩)
      · exact .inl hq
      · exact .inr ⟨rfl, hlt, hfresh⟩
  · rw [stamps_size_add]
    exact h.room
  · intro q hq k hk
    rw [reached_add_iff hroom] at hk
    split at hk
    · omega
    · exact h.past q hq k hk
  · intro q hq
    rw [reached_add_iff hroom]
    rcases (mem_stack_add_iff hroom).mp hq with hq | ⟨rfl, hlt, -⟩
    · obtain ⟨hlt, hreached⟩ := h.pending q hq
      refine ⟨hlt, ?_⟩
      split
      · rfl
      · exact hreached
    · simp [hlt]
  · -- a position on the stack bears the current stamp, so it is not pushed again
    unfold add
    rw [dif_pos hroom]
    split
    · exact h.nodup
    · rename_i hstamp
      split
      · refine List.nodup_cons.mpr ⟨fun hmem => hstamp ?_, h.nodup⟩
        have hreached := (h.pending p hmem).2
        rwa [Frontier.reached_iff, Array.getElem?_eq_getElem hroom, Option.some_inj] at hreached
      · exact h.nodup

theorem Valid.pop {rest : List Nat} (h : f.Valid pos size) (hstack : f.stack = p :: rest) :
    ({ f with stack := rest } : Frontier).Valid pos size where
  room := h.room
  past := h.past
  pending q hq := h.pending q (by simp [hstack, hq])
  nodup := (List.nodup_cons.mp (hstack ▸ h.nodup)).2

@[simp] theorem stamps_size_grow :
    (f.grow size).stamps.size = max f.stamps.size (size + 1) := by
  simp only [grow, Array.size_append, Array.size_replicate]
  omega

@[simp] theorem stamps_size_clear : (f.clear size).stamps.size = f.stamps.size := by
  simp only [clear, Array.size_append, Array.size_replicate, Array.size_extract]
  omega

theorem idle_clear (h : size < f.stamps.size) : (f.clear size).Idle 0 size where
  room := by rwa [stamps_size_clear]
  past p hp k hk := by
    have hlt : p < min (size + 1) f.stamps.size := by omega
    rw [reached_iff] at hk
    simp [clear, Array.getElem?_append, hlt] at hk
  stack_nil := rfl

end Frontier

namespace Scratch

variable {s : Scratch} {size : Nat}

/-- Both frontiers have room for the same positions. -/
def Balanced (s : Scratch) : Prop :=
  s.current.stamps.size = s.next.stamps.size

theorem balanced_fresh : fresh.Balanced := rfl

theorem Balanced.swap (h : s.Balanced) : s.swap.Balanced :=
  Eq.symm h

theorem Balanced.reserve (h : s.Balanced) (size : Nat) : (s.reserve size).Balanced := by
  unfold Scratch.reserve
  split
  · simpa [Balanced] using congrArg (max · (size + 1)) h
  · exact h

theorem balanced_sizedFor (size : Nat) : (sizedFor size).Balanced :=
  balanced_fresh.reserve size

theorem Balanced.reset (h : s.Balanced) (size : Nat) : (s.reset size).Balanced := by
  simpa [Balanced, Scratch.reset] using h.reserve size

/-- A reset leaves both frontiers with room for an automaton of `size` elements and with nothing of
what was reached before. -/
theorem Balanced.idle_reset (h : s.Balanced) (size : Nat) :
    (s.reset size).current.Idle 0 size ∧ (s.reset size).next.Idle 0 size := by
  have hcurrent : size < (s.reserve size).current.stamps.size := by
    unfold Scratch.reserve
    split
    · simp only [Frontier.stamps_size_grow]
      omega
    · omega
  have hnext : size < (s.reserve size).next.stamps.size := by
    rw [← h.reserve size]
    exact hcurrent
  exact ⟨Frontier.idle_clear hcurrent, Frontier.idle_clear hnext⟩

end Scratch

end NameGlob
