import NameGlob.Proofs.Automaton.Form
import NameGlob.Proofs.Automaton.Work

/-!
# Accesses of a match

A match reads elements and sets, and it reads and writes the stamps of both frontiers. Here every access fails when
the index lies outside of the array, so a match that succeeds makes accesses within bounds only. A compiled pattern
matches this way with the same result: the positions that are processed lie before elements, the bracket elements
refer to sets, and after a reset there is a stamp for each position and one for the end.
-/

namespace NameGlob

/-- An access outside of an array. -/
structure OutOfBounds where
  index : Nat
  size : Nat
  deriving Repr, DecidableEq

/-- Reads an entry of an array. -/
def fetch {α : Type} (xs : Array α) (i : Nat) : Except OutOfBounds α :=
  if h : i < xs.size then .ok xs[i] else .error ⟨i, xs.size⟩

/-- Writes an entry of an array. -/
def store {α : Type} (xs : Array α) (i : Nat) (x : α) : Except OutOfBounds (Array α) :=
  if h : i < xs.size then .ok (xs.set i x) else .error ⟨i, xs.size⟩

/-- The computation gives `value`, unless one of its accesses lies outside of an array. -/
def FaultOr {α : Type} (x : Except OutOfBounds α) (value : α) : Prop :=
  ∀ r, x = .ok r → r = value

theorem FaultOr.bind {α β : Type} {x : Except OutOfBounds α} {next : α → Except OutOfBounds β} {v : α} {w : β}
    (hx : FaultOr x v) (hnext : FaultOr (next v) w) : FaultOr (x >>= next) w := by
  intro r h
  cases x with
  | error fault => cases h
  | ok u =>
    obtain rfl := hx u rfl
    exact hnext r h

theorem bind_of_ok {α β : Type} {x : Except OutOfBounds α} {next : α → Except OutOfBounds β} {v : α}
    {r : Except OutOfBounds β} (hx : x = .ok v) (hnext : next v = r) : x >>= next = r := by
  rw [hx]
  exact hnext

theorem faultOr_ok {α : Type} (v : α) : FaultOr (.ok v) v :=
  fun _ h => (Except.ok.inj h).symm

theorem faultOr_error {α : Type} (fault : OutOfBounds) (v : α) : FaultOr (.error fault) v :=
  fun _ h => nomatch h

theorem fetch_of_lt {α : Type} {xs : Array α} {i : Nat} (h : i < xs.size) : fetch xs i = .ok xs[i] :=
  dif_pos h

theorem store_of_lt {α : Type} {xs : Array α} {i : Nat} (h : i < xs.size) (x : α) :
    store xs i x = .ok (xs.set i x) :=
  dif_pos h

theorem fetch_of_not_lt {α : Type} {xs : Array α} {i : Nat} (h : ¬i < xs.size) :
    fetch xs i = .error ⟨i, xs.size⟩ :=
  dif_neg h

namespace Frontier

variable {f f' : Frontier} {p pos size : Nat}

/-- Adds position `p` after `pos` characters, like `Frontier.add`. -/
def checkedAdd (f : Frontier) (p pos size : Nat) : Except OutOfBounds Frontier := do
  if (← fetch f.stamps p) = some pos then return f
  let stamps ← store f.stamps p (some pos)
  return ⟨stamps, if p < size then p :: f.stack else f.stack⟩

/-- Forgets what was reached, like `Frontier.clear`. The last stamp that is cleared is that of `size`. -/
def checkedClear (f : Frontier) (size : Nat) : Except OutOfBounds Frontier :=
  if size < f.stamps.size then .ok (f.clear size) else .error ⟨size, f.stamps.size⟩

theorem checkedAdd_eq (h : p < f.stamps.size) : f.checkedAdd p pos size = .ok (f.add p pos size) := by
  unfold checkedAdd add
  rw [fetch_of_lt h, store_of_lt h, dif_pos h]
  show (if f.stamps[p] = some pos then _ else _) = _
  split <;> rfl

theorem faultOr_checkedAdd : FaultOr (f.checkedAdd p pos size) (f.add p pos size) := by
  by_cases hp : p < f.stamps.size
  · rw [checkedAdd_eq hp]
    exact faultOr_ok _
  · rw [checkedAdd, fetch_of_not_lt hp]
    exact faultOr_error _ _

theorem checkedClear_eq (h : size < f.stamps.size) : f.checkedClear size = .ok (f.clear size) :=
  if_pos h

end Frontier

/-- Makes room for an automaton and forgets what was reached, like `Scratch.reset`. -/
def Scratch.checkedReset (s : Scratch) (size : Nat) : Except OutOfBounds Scratch := do
  let s := s.reserve size
  let current ← s.current.checkedClear size
  let next ← s.next.checkedClear size
  return ⟨current, next⟩

/-- After a reset both frontiers have a stamp for each position and for the end, and as many as each other. -/
theorem Scratch.Balanced.room_reset {s : Scratch} (h : s.Balanced) (size : Nat) :
    (s.reset size).current.stamps.size = (s.reset size).next.stamps.size ∧
      size < (s.reset size).current.stamps.size :=
  ⟨h.reset size, (h.idle_reset size).1.room⟩

theorem Scratch.Balanced.checkedReset_eq {s : Scratch} (h : s.Balanced) (size : Nat) :
    s.checkedReset size = .ok (s.reset size) := by
  obtain ⟨hcurrent, hnext⟩ := h.idle_reset size
  have hroom : size < (s.reserve size).current.stamps.size := by
    simpa [Scratch.reset] using hcurrent.room
  have hroom' : size < (s.reserve size).next.stamps.size := by
    simpa [Scratch.reset] using hnext.room
  unfold Scratch.checkedReset
  dsimp only
  rw [Frontier.checkedClear_eq hroom, Frontier.checkedClear_eq hroom']
  rfl

namespace Automaton

variable {a : Automaton} {pos p : Nat} {c : CodePoint} {c? : Option CodePoint} {e : Element}
  {text : List CodePoint} {s s' : Scratch}

/-- Tells whether an element takes the folded character `c`, like `Automaton.admits`. -/
def checkedAdmits (a : Automaton) (element : Element) (c : CodePoint) : Except OutOfBounds Bool :=
  match element with
  | .literal l => return l == c
  | .anyOne => return true
  | .anySequence => return false
  | .bracket index => return holds a.rule (← fetch a.sets index) c

/-- Follows the element at position `p`, like `Automaton.visit`. -/
def checkedVisit (a : Automaton) (pos : Nat) (c? : Option CodePoint) (p : Nat) (s : Scratch) :
    Except OutOfBounds Scratch := do
  match ← fetch a.elements p with
  | .anySequence =>
    let current ← s.current.checkedAdd (p + 1) pos a.size
    match c? with
    | none => return { s with current }
    | some _ => return { current, next := ← s.next.checkedAdd p (pos + 1) a.size }
  | element =>
    match c? with
    | none => return s
    | some c =>
      if ← a.checkedAdmits element c then
        return { s with next := ← s.next.checkedAdd (p + 1) (pos + 1) a.size }
      else return s

theorem checkedAdmits_eq (h : ∀ index, e = .bracket index → index < a.sets.size) :
    a.checkedAdmits e c = .ok (a.admits e c) := by
  cases e with
  | bracket index =>
    have hindex := h index rfl
    rw [checkedAdmits, fetch_of_lt hindex, admits, Array.getElem?_eq_getElem hindex]
    rfl
  | _ => rfl

theorem faultOr_checkedAdmits : FaultOr (a.checkedAdmits e c) (a.admits e c) := by
  cases e with
  | bracket index =>
    by_cases hindex : index < a.sets.size
    · rw [checkedAdmits_eq fun _ he => Element.bracket.inj he ▸ hindex]
      exact faultOr_ok _
    · rw [checkedAdmits, fetch_of_not_lt hindex]
      exact faultOr_error _ _
  | _ => exact faultOr_ok _

theorem faultOr_checkedVisit : FaultOr (a.checkedVisit pos c? p s) (a.visit pos c? p s) := by
  unfold checkedVisit visit
  by_cases hp : p < a.elements.size
  · rw [fetch_of_lt hp, Array.getElem?_eq_getElem hp]
    refine (faultOr_ok _).bind ?_
    cases a.elements[p] with
    | anySequence =>
      cases c? with
      | none => exact Frontier.faultOr_checkedAdd.bind (faultOr_ok _)
      | some c => exact Frontier.faultOr_checkedAdd.bind (Frontier.faultOr_checkedAdd.bind (faultOr_ok _))
    | _ =>
      cases c? with
      | none => exact faultOr_ok _
      | some c =>
        refine faultOr_checkedAdmits.bind ?_
        dsimp only [Option.any_some]
        split
        · exact Frontier.faultOr_checkedAdd.bind (faultOr_ok _)
        · exact faultOr_ok _
  · rw [fetch_of_not_lt hp]
    exact faultOr_error _ _

/-- Following an element makes accesses within bounds only: the element is there, its set is there if it is a bracket
element, and there are stamps for all positions. -/
theorem checkedVisit_eq (ha : a.Numbered) (hp : p < a.size) (hcurrent : a.size < s.current.stamps.size)
    (hnext : a.size < s.next.stamps.size) : a.checkedVisit pos c? p s = .ok (a.visit pos c? p s) := by
  have helement : p < a.elements.size := hp
  have hadmits : ∀ c, a.checkedAdmits a.elements[p] c = .ok (a.admits a.elements[p] c) := by
    refine fun c => checkedAdmits_eq fun index hindex => ha.lt_sets_size (p := p) ?_
    rw [Array.getElem?_eq_getElem helement, hindex]
  have hskip : s.current.checkedAdd (p + 1) pos a.size = .ok (s.current.add (p + 1) pos a.size) :=
    Frontier.checkedAdd_eq (Nat.lt_of_le_of_lt hp hcurrent)
  have hstay : s.next.checkedAdd p (pos + 1) a.size = .ok (s.next.add p (pos + 1) a.size) :=
    Frontier.checkedAdd_eq (Nat.lt_trans hp hnext)
  have hmove : s.next.checkedAdd (p + 1) (pos + 1) a.size = .ok (s.next.add (p + 1) (pos + 1) a.size) :=
    Frontier.checkedAdd_eq (Nat.lt_of_le_of_lt hp hnext)
  unfold checkedVisit visit
  rw [Array.getElem?_eq_getElem helement]
  refine bind_of_ok (fetch_of_lt helement) ?_
  generalize a.elements[p] = e at hadmits
  cases e with
  | anySequence =>
    cases c? with
    | none => exact bind_of_ok hskip rfl
    | some c => exact bind_of_ok hskip (bind_of_ok hstay rfl)
  | _ =>
    cases c? with
    | none => rfl
    | some c =>
      refine bind_of_ok (hadmits c) ?_
      dsimp only [Option.any_some]
      split
      · exact bind_of_ok hmove rfl
      · rfl

/-- Follows the elements at all positions of the frontier, like `Automaton.drain`. -/
def checkedDrain (a : Automaton) (pos : Nat) (c? : Option CodePoint) (s : Scratch) : Except OutOfBounds Scratch :=
  match _stack : s.current.stack with
  | [] => .ok s
  | p :: rest =>
    match _visit : a.checkedVisit pos c? p { s with current := { s.current with stack := rest } } with
    | .error fault => .error fault
    | .ok s' => checkedDrain a pos c? s'
termination_by s.current.measure pos
decreasing_by
  have hstep : a.step? pos c? s = some s' := by
    rw [step?, _stack, faultOr_checkedVisit s' _visit]
  exact step?_measure_lt hstep

/-- Reads the characters of a text, like `Automaton.read`. -/
def checkedRead (a : Automaton) (pos : Nat) (text : List CodePoint) (s : Scratch) :
    Except OutOfBounds (Bool × Scratch) :=
  match text with
  | [] => do
    let s ← a.checkedDrain pos none s
    let stamp ← fetch s.current.stamps a.size
    return (stamp == some pos, s)
  | c :: rest =>
    if s.current.stack.isEmpty then return (false, s)
    else do
      let s ← a.checkedDrain pos (some (a.rule.fold c)) s
      a.checkedRead (pos + 1) rest s.swap

/-- Decides a text with scratch space that earlier matches may have used, like `Automaton.runWith`. -/
def checkedRun (a : Automaton) (text : Bytes) (s : Scratch) : Except OutOfBounds (Bool × Scratch) := do
  let s ← s.checkedReset a.size
  let current ← s.current.checkedAdd 0 0 a.size
  a.checkedRead 0 (Utf8.codePoints text) { s with current }

theorem checkedDrain_of_stack_nil (h : s.current.stack = []) : a.checkedDrain pos c? s = .ok s := by
  rw [checkedDrain]
  split <;> simp_all

theorem checkedDrain_of_visit {rest : List Nat} (hstack : s.current.stack = p :: rest)
    (hvisit : a.checkedVisit pos c? p { s with current := { s.current with stack := rest } } = .ok s') :
    a.checkedDrain pos c? s = a.checkedDrain pos c? s' := by
  rw [checkedDrain]
  split
  · simp_all
  · rename_i q others hcons
    obtain ⟨rfl, rfl⟩ := List.cons.inj (hstack.symm.trans hcons)
    split <;> simp_all

/-- Processing a frontier makes accesses within bounds only. -/
theorem checkedDrain_eq (ha : a.Numbered) (hcurrent : s.current.Valid pos a.size)
    (hnext : s.next.Valid (pos + 1) a.size) : a.checkedDrain pos c? s = .ok (a.drain pos c? s) := by
  induction s using drain.induct a pos c? with
  | case1 s hstep => rw [drain, hstep, checkedDrain_of_stack_nil (stack_of_step?_eq_none hstep)]
  | case2 s s' hstep ih =>
    obtain ⟨p, rest, hstack, ⟨-, hcurrent'⟩, -, hnext', -⟩ := grows_step? hcurrent hnext hstep
    let popped : Scratch := { s with current := { s.current with stack := rest } }
    have hchecked : a.checkedVisit pos c? p popped = .ok (a.visit pos c? p popped) :=
      checkedVisit_eq ha (hcurrent.pending p (by simp [hstack])).1 hcurrent.room hnext.room
    have hvisit : a.checkedVisit pos c? p popped = .ok s' := by
      rw [step?, hstack] at hstep
      exact hchecked.trans (congrArg Except.ok (Option.some.inj hstep))
    rw [drain, hstep, checkedDrain_of_visit hstack hvisit]
    exact ih hcurrent'.valid hnext'.valid

/-- Reading a text makes accesses within bounds only. -/
theorem checkedRead_eq (ha : a.Numbered) (h : a.Ready pos s) :
    a.checkedRead pos text s = .ok (a.read pos text s) := by
  induction text generalizing pos s with
  | nil =>
    obtain ⟨hdrained, -⟩ := draining_drain (h.draining none)
    have hend : a.size < (a.drain pos none s).current.stamps.size := hdrained.current.room
    rw [checkedRead, read]
    refine bind_of_ok (checkedDrain_eq ha h.current h.next.valid) (bind_of_ok (fetch_of_lt hend) ?_)
    rw [Frontier.reached, Array.getElem?_eq_getElem hend]
    rfl
  | cons c rest ih =>
    rw [checkedRead, read]
    split
    · rfl
    · obtain ⟨hdrained, hstack⟩ := draining_drain (h.draining (some (a.rule.fold c)))
      exact bind_of_ok (checkedDrain_eq ha h.current h.next.valid) (ih (hdrained.ready_swap hstack))

/-- A match makes accesses within bounds only. -/
theorem checkedRun_eq (ha : a.Numbered) (hs : s.Balanced) (text : Bytes) :
    a.checkedRun text s = .ok (a.runWith text s) := by
  have hstart : 0 < (s.reset a.size).current.stamps.size :=
    Nat.lt_of_le_of_lt (Nat.zero_le a.size) (hs.room_reset a.size).2
  refine bind_of_ok (hs.checkedReset_eq a.size) (bind_of_ok (Frontier.checkedAdd_eq hstart) ?_)
  exact checkedRead_eq ha (Ready.of_reset hs).1

/-- A pattern that can be read is compiled to a well-formed automaton, whose sets leave gaps under every locale that
maps code points to words. A match of it, with scratch space that any matches have left, begins with as many stamps
in one frontier as in the other and with more than there are elements; and it gives its result while all its
accesses to elements, sets and stamps are within bounds. -/
theorem compile_safe {pattern : Bytes} {items : List Item} (h : Pattern.parse pattern = .ok items)
    (options : Options) (locale : Locale) :
    ∃ a, compile pattern options locale = .ok a ∧ a.WellFormed ∧
      (locale.LowersToWords → ∀ set ∈ a.sets, set.Canonical) ∧
      ∀ s : Scratch, s.Left →
        (s.reset a.size).current.stamps.size = (s.reset a.size).next.stamps.size ∧
        a.size < (s.reset a.size).current.stamps.size ∧
        ∀ text : Bytes, a.checkedRun text s = .ok (a.runWith text s) := by
  refine ⟨_, compile_eq_ok h options locale, wellFormed_ofItems (Pattern.proper_of_parse h), ?_, ?_⟩
  · intro hlocale set hset
    have hwords : (CaseRule.of options locale).locale.LowersToWords := hlocale
    exact canonical_of_mem_sets h hwords hset
  · intro s hs
    obtain ⟨hsame, hroom⟩ := hs.balanced.room_reset (ofItems (.of options locale) items).size
    exact ⟨hsame, hroom, checkedRun_eq numbered_ofItems hs.balanced⟩

/-- Two `*` in a row and two lists, the first of which has a range next to characters that join it when they are
folded. The scratch space was used for a longer pattern before. -/
theorem compile_safe_lists :
    let dotless := Locale.ofPairs [(0x49, 0x131)] [(0x131, 0x49)]
    let text := Bytes.ascii "xD]"
    Pattern.parse (Bytes.ascii "**[c-eAB]*[]]") =
        .ok [.anySequence, .anySequence, .oneOf [.range 0x63 0x65, .single 0x41, .single 0x42], .anySequence,
          .oneOf [.single 0x5D]] ∧
      dotless.LowersToWords ∧
      ∃ a before, compile (Bytes.ascii "**[c-eAB]*[]]") (.ofFlags true false) dotless = .ok a ∧
        compile (Bytes.ascii "a?b?c?d?") .none .classic = .ok before ∧
        a.elements = #[.anySequence, .bracket 0, .anySequence, .bracket 1] ∧
        a.sets = #[⟨[⟨0x61, 0x65⟩]⟩, ⟨[⟨0x5D, 0x5D⟩]⟩] ∧ a.WellFormed ∧ (∀ set ∈ a.sets, set.Canonical) ∧
        let s := (before.runWith (Bytes.ascii "axbx") .fresh).2
        s.Left ∧ ∃ after, a.checkedRun text s = .ok (true, after) := by
  intro dotless text
  have h : Pattern.parse (Bytes.ascii "**[c-eAB]*[]]") =
      .ok [.anySequence, .anySequence, .oneOf [.range 0x63 0x65, .single 0x41, .single 0x42], .anySequence,
        .oneOf [.single 0x5D]] := by decide +kernel
  have hbefore : Pattern.parse (Bytes.ascii "a?b?c?d?") =
      .ok [.literal 0x61, .anyOne, .literal 0x62, .anyOne, .literal 0x63, .anyOne, .literal 0x64, .anyOne] := by
    decide +kernel
  have hlocale : dotless.LowersToWords := Locale.lowersToWords_ofPairs (by decide)
  obtain ⟨a, ha, hform, hcanonical, hsafe⟩ := compile_safe h (.ofFlags true false) dotless
  have hmade := Except.ok.inj (ha.symm.trans (compile_eq_ok h (.ofFlags true false) dotless))
  refine ⟨h, hlocale, a, _, ha, compile_eq_ok hbefore .none .classic, ?_, ?_, hform, hcanonical hlocale, ?_⟩
  · rw [hmade]
    decide +kernel
  · rw [hmade]
    decide +kernel
  · intro s
    have hs : s.Left := .matched .fresh _ _
    have haccepts : a.accepts text = true := by
      rw [hmade]
      decide +kernel
    have hrun := (hsafe s hs).2.2 text
    rw [← Prod.eta (a.runWith text s), runWith_eq_accepts hs.balanced, haccepts] at hrun
    exact ⟨hs, _, hrun⟩

end Automaton

end NameGlob
