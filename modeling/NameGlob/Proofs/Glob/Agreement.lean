import NameGlob.Proofs.Automaton.Verdict

/-!
# Ways to match

A glob without an automaton accepts every text, which is what the automaton of `*` would do. So a glob gives
the verdict of its pattern however it was made: by itself, as the one that all uses of `*` share, or from an
argument that ends before a NUL byte; and however it is asked: with fresh scratch space, with scratch space
that was used before, or about a text that ends before a NUL byte.
-/

namespace NameGlob

namespace Glob

variable {s : Scratch}

theorem runWith_eq_accepts (h : s.Balanced) (g : Glob) (text : Bytes) :
    (g.runWith text s).1 = g.accepts text := by
  unfold runWith accepts
  cases g.automaton with
  | none => rfl
  | some a => exact Automaton.runWith_eq_accepts h a text

theorem balanced_runWith (h : s.Balanced) (g : Glob) (text : Bytes) :
    (g.runWith text s).2.Balanced := by
  unfold runWith
  cases g.automaton with
  | none => exact h
  | some a => exact Automaton.balanced_runWith h a text

end Glob

/-- Scratch space that is new, that was sized for an automaton, or that matches of any automata and globs
have left. -/
inductive Scratch.Left : Scratch → Prop
  | fresh : Left .fresh
  | sized (a : Automaton) : Left (.sizedFor a.size)
  | matched {s : Scratch} (left : Left s) (a : Automaton) (text : Bytes) : Left (a.runWith text s).2
  | asked {s : Scratch} (left : Left s) (g : Glob) (text : Bytes) : Left (g.runWith text s).2

theorem Scratch.Left.balanced {s : Scratch} (h : s.Left) : s.Balanced := by
  induction h with
  | fresh => exact Scratch.balanced_fresh
  | sized a => exact Scratch.balanced_sizedFor a.size
  | matched _ a text ih => exact Automaton.balanced_runWith ih a text
  | asked _ g text ih => exact Glob.balanced_runWith ih g text

namespace Glob

theorem compile_accepts (pattern : Bytes) (options : Options) (locale : Locale) (text : Bytes) :
    (compile pattern options locale).map (·.accepts text) =
      Automaton.verdict pattern options locale text := by
  by_cases hstar : pattern = star
  · subst hstar
    rw [Automaton.verdict_star, compile, if_pos rfl]
    rfl
  · rw [compile, if_neg hstar, Automaton.verdict]
    cases Automaton.compile pattern options locale with
    | error e => rfl
    | ok a => rfl

/-- A pattern without a syntax error makes a glob, which accepts the texts of its items. -/
theorem compile_of_parse {pattern : Bytes} {items : List Item} (h : Pattern.parse pattern = .ok items)
    (options : Options) (locale : Locale) :
    ∃ g, compile pattern options locale = .ok g ∧
      ∀ text, g.accepts text = true ↔ Item.Accepts (.of options locale) items (Utf8.codePoints text) := by
  have hverdict : ∀ text, (compile pattern options locale).map (·.accepts text) =
      .ok ((Automaton.ofItems (.of options locale) items).accepts text) := by
    intro text
    rw [compile_accepts, Automaton.verdict_of_parse_ok h]
  cases hmade : compile pattern options locale with
  | error e =>
    rw [hmade] at hverdict
    cases hverdict []
  | ok g =>
    rw [hmade] at hverdict
    refine ⟨g, rfl, fun text => ?_⟩
    have haccepts : g.accepts text = (Automaton.ofItems (.of options locale) items).accepts text :=
      Except.ok.inj (hverdict text)
    rw [haccepts, Automaton.accepts_ofItems_iff h]

theorem accepts_iff_of_parse {pattern : Bytes} {items : List Item} {options : Options} {locale : Locale}
    {g : Glob} (h : Pattern.parse pattern = .ok items) (hmade : compile pattern options locale = .ok g)
    (text : Bytes) :
    g.accepts text = true ↔ Item.Accepts (.of options locale) items (Utf8.codePoints text) := by
  obtain ⟨made, hmade', haccepts⟩ := compile_of_parse h options locale
  have hsame : g = made := Except.ok.inj (hmade.symm.trans hmade')
  rw [hsame]
  exact haccepts text

/-- The shared glob of `*` has no options, but no options change what `*` accepts. -/
theorem shared_accepts (pattern : Bytes) (options : Options) (locale : Locale) (text : Bytes) :
    (shared pattern options locale).map (·.accepts text) =
      Automaton.verdict pattern options locale text := by
  by_cases hstar : pattern = star
  · subst hstar
    rw [Automaton.verdict_star, shared, if_pos rfl]
    rfl
  · rw [shared, if_neg hstar, compile_accepts]

theorem compileArgument_eq (pattern : Bytes) (options : Options) (locale : Locale) :
    compileArgument (some pattern) options locale =
      (compile pattern.untilNul options locale).mapError .malformed :=
  rfl

/-- However the glob is asked about a text, it gives the stated verdict. An argument is a text that ends
before its first NUL byte. -/
def Gives {ε : Type} (made : Except ε Glob) (verdict : Bytes → Except ε Bool) : Prop :=
  ∀ text : Bytes, made.map (·.accepts text) = verdict text ∧
    made.map (·.acceptsArgument (some text)) = verdict text.untilNul ∧
    ∀ s : Scratch, s.Left → made.map (fun g => (g.runWith text s).1) = verdict text

theorem gives_of_accepts {ε : Type} {made : Except ε Glob} {verdict : Bytes → Except ε Bool}
    (h : ∀ text, made.map (·.accepts text) = verdict text) : Gives made verdict := by
  refine fun text => ⟨h text, h text.untilNul, fun s hs => ?_⟩
  have hsame : (fun g : Glob => (g.runWith text s).1) = fun g => g.accepts text :=
    funext fun g => runWith_eq_accepts hs.balanced g text
  rw [hsame]
  exact h text

theorem map_mapError {ε ε' α β : Type} (x : Except ε α) (f : ε → ε') (g : α → β) :
    (x.mapError f).map g = (x.map g).mapError f := by
  cases x <;> rfl

/-- A glob and an automaton of a pattern fail with the same syntax error or give the same answers, however
the glob was made and however it is asked. -/
theorem ways_to_match_agree (pattern : Bytes) (options : Options) (locale : Locale) :
    Gives (compile pattern options locale) (Automaton.verdict pattern options locale) ∧
      Gives (shared pattern options locale) (Automaton.verdict pattern options locale) ∧
      Gives (compileArgument (some pattern) options locale) (fun text =>
        (Automaton.verdict pattern.untilNul options locale text).mapError .malformed) ∧
      ∀ s : Scratch, s.Left → ∀ text,
        (Automaton.compile pattern options locale).map (fun a => (a.runWith text s).1) =
          Automaton.verdict pattern options locale text := by
  refine ⟨?_, ?_, ?_, fun s hs text => ?_⟩
  · exact gives_of_accepts (compile_accepts pattern options locale)
  · exact gives_of_accepts (shared_accepts pattern options locale)
  · refine gives_of_accepts fun text => ?_
    rw [compileArgument_eq, map_mapError, compile_accepts]
  · have hsame : (fun a : Automaton => (a.runWith text s).1) = fun a => a.accepts text :=
      funext fun a => Automaton.runWith_eq_accepts hs.balanced a text
    rw [hsame]
    rfl

end Glob

end NameGlob
