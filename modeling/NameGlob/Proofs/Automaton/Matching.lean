import NameGlob.Proofs.Automaton.Compilation
import NameGlob.Proofs.Automaton.Simulation

/-!
# Matching

The automaton of a pattern decides the language of the pattern. The answers do not depend on what the
scratch space was used for, so any number of matches of any automata may share it.
-/

namespace NameGlob.Automaton

variable {a : Automaton} {rule : CaseRule} {pattern : Bytes} {items : List Item}

/-- The automaton of the items of a pattern accepts what the items accept, whatever the scratch space
was used for. -/
theorem runOn_ofItems_iff (h : Pattern.parse pattern = .ok items) {text : List CodePoint} {s : Scratch}
    (hs : s.Balanced) :
    ((ofItems rule items).runOn text s).1 = true ↔ Item.Accepts rule items text := by
  rw [runOn_iff hs, acceptsFrom_ofItems_iff (Pattern.proper_of_parse h)]

/-- A pattern that can be read is the account of its items, and compiled it accepts exactly the texts
whose characters can be cut into segments that the items take one after the other. -/
theorem compile_accepts_iff (h : Pattern.parse pattern = .ok items) (options : Options)
    (locale : Locale) :
    Pattern.trace pattern options =
        .start pattern options :: items.flatMap Item.events ++ [.finish] ∧
      ∃ a, compile pattern options locale = .ok a ∧
        ∀ text : Bytes, a.accepts text = true ↔
          Item.Accepts (.of options locale) items (Utf8.codePoints text) := by
  refine ⟨Pattern.trace_of_parse h options, _, compile_eq_ok h options locale, fun text => ?_⟩
  exact runOn_ofItems_iff h Scratch.balanced_fresh

/-- The pattern `a*[x-z]` when case is ignored. -/
theorem compile_accepts_iff_range :
    Pattern.parse (Bytes.ascii "a*[x-z]") =
        .ok [.literal 0x61, .anySequence, .oneOf [.range 0x78 0x7A]] ∧
      ∃ a, compile (Bytes.ascii "a*[x-z]") (.ofFlags true false) .classic = .ok a ∧
        ∀ text : Bytes, a.accepts text = true ↔
          Item.Accepts (.of (.ofFlags true false) .classic)
            [.literal 0x61, .anySequence, .oneOf [.range 0x78 0x7A]] (Utf8.codePoints text) :=
  have h : Pattern.parse (Bytes.ascii "a*[x-z]") =
      .ok [.literal 0x61, .anySequence, .oneOf [.range 0x78 0x7A]] := by decide +kernel
  ⟨h, (compile_accepts_iff h (.ofFlags true false) .classic).2⟩

/-- Matches one after the other, each of its own automaton and text, with the same scratch space. -/
def runEach (s : Scratch) : List (Automaton × Bytes) → List Bool
  | [] => []
  | (a, text) :: rest =>
    let (accepted, s) := a.runWith text s
    accepted :: runEach s rest

theorem runWith_eq_accepts {s : Scratch} (h : s.Balanced) (a : Automaton) (text : Bytes) :
    (a.runWith text s).1 = a.accepts text := by
  rw [Bool.eq_iff_iff, accepts_iff]
  exact runOn_iff h

theorem balanced_runWith {s : Scratch} (h : s.Balanced) (a : Automaton) (text : Bytes) :
    (a.runWith text s).2.Balanced :=
  balanced_runOn h

theorem runEach_eq_map {s : Scratch} (h : s.Balanced) (calls : List (Automaton × Bytes)) :
    runEach s calls = calls.map fun call => call.1.accepts call.2 := by
  induction calls generalizing s with
  | nil => rfl
  | cons call rest ih =>
    obtain ⟨a, text⟩ := call
    simp only [runEach, List.map_cons, runWith_eq_accepts h, ih (balanced_runWith h a text)]

/-- Matches that share their scratch space answer like fresh ones, whether the space was new or had been
sized for some automaton. -/
theorem runEach_eq_accepts (calls : List (Automaton × Bytes)) :
    runEach .fresh calls = calls.map (fun call => call.1.accepts call.2) ∧
      ∀ a : Automaton,
        runEach (.sizedFor a.size) calls = calls.map (fun call => call.1.accepts call.2) :=
  ⟨runEach_eq_map Scratch.balanced_fresh calls,
    fun a => runEach_eq_map (Scratch.balanced_sizedFor a.size) calls⟩

end NameGlob.Automaton
