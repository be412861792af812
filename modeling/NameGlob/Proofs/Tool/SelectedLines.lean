import NameGlob.Proofs.Tool.Refusals
import NameGlob.Proofs.Tool.Unfolding

/-!
# Selected lines

What a run selects is told by the directives that its command line asks for, with its configuration files unfolded.
They give the flags, the patterns and the inputs. The filter of the patterns decides on every line of the inputs, and
with `-v` the other lines are selected.
-/

namespace NameGlob.Tool

/-- Tells whether a flag is asked for. -/
def isAsked (asked : List Directive) (flag : Flag) : Bool :=
  asked.any (·.sets flag)

/-- The flags that ask for something else than names. -/
def conversionFlags : List Flag :=
  [.dos, .escape, .hasWildcards, .regex, .unescape, .wql]

/-- Tells whether patterns are to be printed or tested instead of names being selected. -/
def asksConversion (asked : List Directive) : Bool :=
  conversionFlags.any (isAsked asked)

def patternsOf (role : Role) (asked : List Directive) : List Bytes :=
  asked.filterMap (·.pattern? role)

def operandsOf (asked : List Directive) : List Bytes :=
  asked.filterMap Directive.operand?

/-- The patterns to include. Without an option for one, the first operand is one. -/
def includesOf (asked : List Directive) : List Bytes :=
  if patternsOf .including asked = [] then (operandsOf asked).take 1 else patternsOf .including asked

/-- The operands that name inputs. -/
def filesOf (asked : List Directive) : List Bytes :=
  if patternsOf .including asked = [] then (operandsOf asked).drop 1 else operandsOf asked

section Settings

variable {asked : List Directive} {settings : Settings}

namespace Settings

theorem has_promoteOperand (s : Settings) (flag : Flag) : s.promoteOperand.has flag = s.has flag := by
  unfold promoteOperand
  split
  · cases flag <;> rfl
  · rfl

theorem includes_promoteOperand (s : Settings) :
    s.promoteOperand.includes = if s.includes = [] then s.operands.take 1 else s.includes := by
  cases hincludes : s.includes <;> cases hoperands : s.operands <;> simp [promoteOperand, hincludes, hoperands]

theorem excludes_promoteOperand (s : Settings) : s.promoteOperand.excludes = s.excludes := by
  unfold promoteOperand
  split <;> rfl

theorem operands_promoteOperand (s : Settings) :
    s.promoteOperand.operands = if s.includes = [] then s.operands.drop 1 else s.operands := by
  cases hincludes : s.includes <;> cases hoperands : s.operands <;> simp [promoteOperand, hincludes, hoperands]

theorem converts_eq_any (s : Settings) : s.converts = conversionFlags.any s.has := by
  simp only [converts, conversionFlags, has, List.any_cons, List.any_nil]
  ac_rfl

namespace Extends

theorem has_eq (h : Extends {} asked settings) (flag : Flag) :
    settings.promoteOperand.has flag = isAsked asked flag := by
  have hdefault : ({} : Settings).has flag = false := by cases flag <;> rfl
  rw [has_promoteOperand, h.flags, hdefault, Bool.false_or]
  rfl

theorem converts_eq (h : Extends {} asked settings) : settings.promoteOperand.converts = asksConversion asked := by
  rw [converts_eq_any, asksConversion]
  congr 1
  exact funext h.has_eq

theorem includes_eq (h : Extends {} asked settings) : settings.promoteOperand.includes = includesOf asked := by
  rw [includes_promoteOperand, h.includes, h.operands]
  rfl

theorem excludes_eq (h : Extends {} asked settings) :
    settings.promoteOperand.excludes = patternsOf .excluding asked := by
  rw [excludes_promoteOperand, h.excludes]
  rfl

theorem operands_eq (h : Extends {} asked settings) : settings.promoteOperand.operands = filesOf asked := by
  rw [operands_promoteOperand, h.includes, h.operands]
  rfl

end Extends

end Settings

end Settings

section Runs

variable {env : Environment} {arguments : List Bytes} {asked : List Directive}

/-- A flag in front of a command line is asked for in addition. -/
theorem Requests.flag (h : Requests env arguments asked) (f : LetterFlag) :
    Requests env (group [f] [] :: arguments) (.set f.flag :: asked) := by
  obtain ⟨ds, read, hasks, hunfolds⟩ := h
  refine ⟨.set f.flag :: ds, read, ?_, .own trivial hunfolds⟩
  have hgroup : (group [f] []).takeWhile (· != 0) = group [f] [] :=
    Bytes.untilNul_eq_self (zero_not_mem_group List.not_mem_nil)
  rw [List.map_cons, hgroup]
  exact .flags (List.cons_ne_nil _ _) hasks

theorem Requests.exists_ofArguments (h : Requests env arguments asked)
    (hready : asksConversion asked = true → includesOf asked ≠ []) :
    ∃ s : Session, Session.ofArguments env arguments = .ok { s with settings := s.settings.promoteOperand } ∧
      s.warnings = 0 ∧ Settings.Extends {} asked s.settings := by
  obtain ⟨s, hs, hextends⟩ := h.exists_afterOptions
  rw [← hextends.converts_eq, ← hextends.includes_eq] at hready
  have hready' : s.settings.promoteOperand.converts = false ∨ s.settings.promoteOperand.includes ≠ [] := by
    rw [← Bool.not_eq_true]
    exact not_or_of_imp hready
  have hsettled := Session.ofArguments_of_afterOptions hs hready'
  exact ⟨s, hsettled, (Session.warnings_ofArguments hsettled :), hextends⟩

/-- A command line is accepted when it can be unfolded, and holds a pattern for a conversion that it asks for. -/
theorem exists_ofArguments_iff :
    (∃ s, Session.ofArguments env arguments = .ok s) ↔
      ∃ asked, Requests env arguments asked ∧ (asksConversion asked = true → includesOf asked ≠ []) := by
  constructor
  · rintro ⟨s, hs⟩
    rw [Session.ofArguments_eq_settle] at hs
    obtain ⟨after, hafter, hsettle⟩ := exists_ok_of_bind hs
    obtain ⟨asked, h⟩ := exists_afterOptions_iff.mp ⟨after, hafter⟩
    obtain ⟨s', hs', hextends⟩ := h.exists_afterOptions
    obtain rfl := Except.ok.inj (hafter.symm.trans hs')
    refine ⟨asked, h, fun hconversion hnone => ?_⟩
    rw [← hextends.converts_eq] at hconversion
    rw [← hextends.includes_eq] at hnone
    rw [Session.settle] at hsettle
    dsimp only at hsettle
    rw [hconversion, hnone] at hsettle
    cases hsettle
  · rintro ⟨asked, h, hready⟩
    obtain ⟨s, hs, -⟩ := h.exists_ofArguments hready
    exact ⟨_, hs⟩

/-- The run selects the lines on which the filter of its patterns differs from `-v`. -/
theorem Requests.selects {f : NameFilter} (h : Requests env arguments asked) (hselect : asksConversion asked = false)
    (hfilter : NameFilter.ofPatterns (.ofFlags (isAsked asked .ignoreCase) (isAsked asked .cultureInvariant))
      env.host.locale (includesOf asked) (patternsOf .excluding asked) = .ok f)
    (hplain : Uncompressed env (isAsked asked .decompress) (inputs (filesOf asked))) :
    (run env arguments).Selects (isAsked asked .count)
      ((linesRead env (inputs (filesOf asked))).filter fun line => f.accepts line != isAsked asked .invertMatch)
      ((inputs (filesOf asked)).any (isTroubled env)) := by
  obtain ⟨s, hs, hwarnings, hextends⟩ := h.exists_ofArguments (by simp [hselect])
  rw [← hextends.includes_eq, ← hextends.excludes_eq, ← hextends.has_eq, ← hextends.has_eq] at hfilter
  rw [← hextends.operands_eq, ← hextends.has_eq] at hplain
  rw [← hextends.converts_eq] at hselect
  rw [← hextends.operands_eq, ← hextends.has_eq, ← hextends.has_eq, run_eq_select hs hselect]
  exact Session.select_selects hwarnings hfilter hplain

theorem filter_append_filter_perm {α : Type} (accepts : α → Bool) (xs : List α) :
    (xs.filter (accepts · != false) ++ xs.filter (accepts · != true)).Perm xs := by
  have hnot : (fun x => accepts x != true) = fun x => !(accepts x != false) := by
    funext x
    cases accepts x <;> rfl
  rw [hnot]
  exact List.filter_append_perm _ xs

/-- The command lines that are accepted are those that can be unfolded, unless one asks for a conversion without a
pattern. Let the directives of one ask for no conversion, and let all its patterns be well formed. Then there is a
filter of these patterns, which decides on a name by the patterns one by one. The run prints the lines of its inputs
on which the answer of the filter differs from `-v`, or with `-c` their number, and its status tells whether there
was such a line and whether all inputs could be read. The run with one more `-v` in front selects the lines that are
not accepted, so every line is selected by exactly one of two runs of which one has `-v` and the other has not. -/
theorem run_selects_lines (env : Environment) (arguments : List Bytes) :
    ((∃ s, Session.ofArguments env arguments = .ok s) ↔
      ∃ asked, Requests env arguments asked ∧ (asksConversion asked = true → includesOf asked ≠ [])) ∧
    ∀ asked, Requests env arguments asked → asksConversion asked = false →
      (∀ p ∈ includesOf asked ++ patternsOf .excluding asked, ∃ items, Pattern.parse p = .ok items) →
      Uncompressed env (isAsked asked .decompress) (inputs (filesOf asked)) →
      let options := Options.ofFlags (isAsked asked .ignoreCase) (isAsked asked .cultureInvariant)
      options.ignoreCase = isAsked asked .ignoreCase ∧ options.cultureInvariant = isAsked asked .cultureInvariant ∧
      ∃ f, NameFilter.ofPatterns options env.host.locale (includesOf asked) (patternsOf .excluding asked) = .ok f ∧
        (∀ name, f.accepts name = true ↔
          (includesOf asked = [] ∨
            ∃ q ∈ includesOf asked, Automaton.verdict q options env.host.locale name = .ok true) ∧
          ∀ q ∈ patternsOf .excluding asked, Automaton.verdict q options env.host.locale name ≠ .ok true) ∧
        let read := linesRead env (inputs (filesOf asked))
        let selected (inverted : Bool) := read.filter fun line => f.accepts line != inverted
        let troubled := (inputs (filesOf asked)).any (isTroubled env)
        (run env arguments).Selects (isAsked asked .count) (selected (isAsked asked .invertMatch)) troubled ∧
        (run env (Bytes.ascii "-v" :: arguments)).Selects (isAsked asked .count) (selected true) troubled ∧
        (selected false ++ selected true).Perm read ∧
        ∀ line ∈ read, Xor (line ∈ selected false) (line ∈ selected true) := by
  refine ⟨exists_ofArguments_iff, fun asked h hselect hparse hplain => ?_⟩
  intro options
  obtain ⟨f, hfilter, hdecides⟩ := NameFilter.exists_ofPatterns hparse options env.host.locale
  refine ⟨Options.ignoreCase_ofFlags _ _, Options.cultureInvariant_ofFlags _ _, f, hfilter, hdecides,
    h.selects hselect hfilter hplain, (h.flag .invertMatch).selects hselect hfilter hplain,
    filter_append_filter_perm f.accepts _, fun line hline => ?_⟩
  cases haccepts : f.accepts line <;> simp [Xor, hline, haccepts]

/-- Two patterns of options and one of a configuration file. A missing file and a file that fails behind its first line
do not keep the others from being read, and nothing is left where standard input is named again. -/
theorem run_selects_lines_missing_file :
    let env : Environment :=
      { home := none
        stdin := Bytes.ascii "ab\r\nb\n"
        opened := fun path =>
          if path = Bytes.ascii "c" then .file (Bytes.ascii "# names\n exclude=*c\n")
          else if path = Bytes.ascii "f" then .file (Bytes.ascii "b\nax\nac")
          else if path = Bytes.ascii "g" then .file ⟨Bytes.ascii "aa\n", some .inputOutput⟩
          else .refused .missing }
    let arguments := ["-zea*", "--config=c", "-x", "ab", "f", "-", "nope", "-", "g"].map Bytes.ascii
    let counting := Bytes.ascii "-c" :: arguments
    (run env arguments).stdout = Bytes.ascii "ax\naa\n" ∧ (run env arguments).status = 2 ∧
      (run env counting).stdout = Bytes.ascii "2\n" ∧
      (run env (Bytes.ascii "-v" :: counting)).stdout = Bytes.ascii "4\n" := by
  intro env arguments counting
  let operands : List Directive := ["f", "-", "nope", "-", "g"].map (.operand ∘ Bytes.ascii)
  let asked : List Directive :=
    .set .decompress :: .pattern .including (Bytes.ascii "a*") :: .pattern .excluding (Bytes.ascii "*c") ::
      .pattern .excluding (Bytes.ascii "ab") :: operands
  have hasks : Asks (arguments.map (List.takeWhile (· != 0)))
      (.set .decompress :: .pattern .including (Bytes.ascii "a*") :: .config (Bytes.ascii "c") ::
        .pattern .excluding (Bytes.ascii "ab") :: operands) :=
    asks_iff.mpr ⟨by decide +kernel, by simp [operands, Directive.IsProper]⟩
  have hlines : FileAsks (Bytes.lines (Bytes.ascii "# names\n exclude=*c\n"))
      [.pattern .excluding (Bytes.ascii "*c")] :=
    fileAsks_iff.mpr ⟨by decide +kernel, by simp [Directive.IsProper]⟩
  have hopened : env.opened (Bytes.ascii "c") = .file (Bytes.ascii "# names\n exclude=*c\n") := rfl
  have hopens : Opens env (fileOf (Bytes.ascii "c")) := by
    intro e he
    cases hopened.symm.trans he
  have hoperands : Unfolds env 2 [Bytes.ascii "c"] operands operands [Bytes.ascii "c"] :=
    .own trivial (.own trivial (.own trivial (.own trivial (.own trivial (.nil _ _)))))
  have h : Requests env arguments asked :=
    ⟨_, _, hasks, .own trivial (.own trivial (.file (.here hopens) List.not_mem_nil hopened hlines
      (.own trivial (.nil _ _)) (.own trivial hoperands)))⟩
  have hparse : ∀ p ∈ includesOf asked ++ patternsOf .excluding asked, ∃ items, Pattern.parse p = .ok items := by
    have hwell : ∀ p ∈ includesOf asked ++ patternsOf .excluding asked, (Pattern.parse p).isOk = true := by
      decide +kernel
    intro p hp
    apply Pattern.exists_parse_of_not_error
    rintro ⟨e, he⟩
    have hok := hwell p hp
    rw [he] at hok
    cases hok
  have hplain : Uncompressed env (isAsked asked .decompress) (inputs (filesOf asked)) := by
    refine ⟨fun _ => by decide +kernel, fun input hinput _ => ?_⟩
    revert input
    decide +kernel
  let read := linesRead env (inputs (filesOf asked))
  have hfiltered : (NameFilter.ofPatterns (.ofFlags false false) .classic (includesOf asked)
      (patternsOf .excluding asked)).map (fun f =>
        (read.filter fun line => f.accepts line != false, (read.filter fun line => f.accepts line != true).length)) =
      .ok (["ax", "aa"].map Bytes.ascii, 4) := by
    decide +kernel
  obtain ⟨-, -, f, hf, -, hselects, -⟩ := (run_selects_lines env arguments).2 asked h rfl hparse hplain
  obtain ⟨-, -, g, hg, -, hcounts, hinverted, -⟩ :=
    (run_selects_lines env counting).2 _ (h.flag .count) rfl hparse hplain
  obtain rfl : f = g := Except.ok.inj (hf.symm.trans hg)
  have hfilter : NameFilter.ofPatterns (.ofFlags false false) .classic (includesOf asked)
      (patternsOf .excluding asked) = .ok f := hf
  rw [hfilter] at hfiltered
  obtain ⟨hselected, hothers⟩ := Prod.mk.inj (Except.ok.inj hfiltered)
  have hprints : (run env arguments).Selects false (read.filter fun line => f.accepts line != false) true := hselects
  have hnumbers : (run env counting).Selects true (read.filter fun line => f.accepts line != false) true := hcounts
  have hinverts : (run env (Bytes.ascii "-v" :: counting)).Selects true
      (read.filter fun line => f.accepts line != true) true := hinverted
  rw [hselected] at hprints hnumbers
  refine ⟨hprints.stdout, hprints.status, hnumbers.stdout, hinverts.stdout.trans ?_⟩
  rw [hothers]
  rfl

end Runs

end NameGlob.Tool
