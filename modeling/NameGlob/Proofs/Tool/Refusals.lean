import NameGlob.Proofs.Rendering.WqlMatching
import NameGlob.Proofs.Tool.Arguments
import NameGlob.Proofs.Tool.Selection

/-!
# Refused patterns

Names are selected by a filter of all patterns, so one malformed pattern ends the run before a name is read. Patterns
that are printed are taken one after the other, and the first that cannot be printed ends the run. What was printed
before it stays printed.
-/

namespace NameGlob

theorem exists_first_of_exists {α : Type} {P : α → Prop} {xs : List α} (h : ∃ x ∈ xs, P x) :
    ∃ front x back, xs = front ++ x :: back ∧ (∀ y ∈ front, ¬ P y) ∧ P x := by
  induction xs with
  | nil => simp at h
  | cons x xs ih =>
    by_cases hx : P x
    · exact ⟨[], x, xs, rfl, List.forall_mem_nil _, hx⟩
    · obtain ⟨front, y, back, rfl, hfront, hy⟩ := ih (by simpa [hx] using h)
      exact ⟨x :: front, y, back, rfl, List.forall_mem_cons.mpr ⟨hx, hfront⟩, hy⟩

/-- A fold ends at the first step that fails. -/
theorem foldlM_eq_error_of_step {ε α σ : Type} {step : σ → α → Except ε σ} {s middle : σ} {front : List α} {x : α}
    {e : ε} (hfront : front.foldlM step s = .ok middle) (hx : step middle x = .error e) (back : List α) :
    (front ++ x :: back).foldlM step s = .error e := by
  rw [List.foldlM_append, hfront]
  show List.foldlM step middle (x :: back) = _
  rw [List.foldlM_cons, hx]
  rfl

theorem Pattern.exists_parse_of_not_error {p : Bytes} (h : ¬ ∃ e, parse p = .error e) :
    ∃ items, parse p = .ok items := by
  cases hparse : parse p with
  | error e => exact absurd ⟨e, hparse⟩ h
  | ok items => exact ⟨items, rfl⟩

namespace NameFilter

variable {f : NameFilter} {options : Options} {locale : Locale} {includes excludes : List Bytes}
  {pattern : Bytes} {e : SyntaxError}

theorem Holds.addInclude_eq_error (h : f.Holds options locale includes excludes)
    (hparse : Pattern.parse pattern = .error e) : f.addInclude pattern locale = .error e := by
  have hinsert : f.includes.insert pattern locale = .error e := by
    rw [h.includes.insert_eq_error_iff, Automaton.compile, hparse]
  rw [NameFilter.addInclude, hinsert]
  rfl

theorem Holds.addExclude_eq_error (h : f.Holds options locale includes excludes)
    (hparse : Pattern.parse pattern = .error e) : f.addExclude pattern locale = .error e := by
  have hinsert : f.excludes.insert pattern locale = .error e := by
    rw [h.excludes.insert_eq_error_iff, Automaton.compile, hparse]
  rw [NameFilter.addExclude, hinsert]
  rfl

end NameFilter

namespace Tool

/-- The first malformed pattern, of those to include and then those to exclude, is the error of the filter. -/
theorem Settings.exists_filter_error {s : Settings}
    (h : ∃ p ∈ s.includes ++ s.excludes, ∃ e, Pattern.parse p = .error e) (locale : Locale) :
    ∃ front p back e, s.includes ++ s.excludes = front ++ p :: back ∧
      (∀ q ∈ front, ∃ items, Pattern.parse q = .ok items) ∧ Pattern.parse p = .error e ∧
      s.filter locale = .error e := by
  have hreadable : ∀ front : List Bytes, (∀ q ∈ front, ¬ ∃ e, Pattern.parse q = .error e) →
      ∀ q ∈ front, ∃ items, Pattern.parse q = .ok items :=
    fun front hfront q hq => Pattern.exists_parse_of_not_error (hfront q hq)
  by_cases hincludes : ∃ p ∈ s.includes, ∃ e, Pattern.parse p = .error e
  · obtain ⟨front, p, back, hsplit, hfront, e, he⟩ := exists_first_of_exists hincludes
    obtain ⟨f, hf, hheld⟩ := (NameFilter.holds_empty s.options locale).exists_foldlM_addInclude (hreadable front hfront)
    refine ⟨front, p, back ++ s.excludes, e, by simp [hsplit], hreadable front hfront, he, ?_⟩
    rw [filter, NameFilter.ofPatterns, hsplit, foldlM_eq_error_of_step hf (hheld.addInclude_eq_error he)]
    rfl
  · have hall : ∀ q ∈ s.includes, ∃ items, Pattern.parse q = .ok items :=
      hreadable s.includes fun q hq he => hincludes ⟨q, hq, he⟩
    have hexcludes : ∃ p ∈ s.excludes, ∃ e, Pattern.parse p = .error e := by
      obtain ⟨p, hp, he⟩ := h
      exact ⟨p, (List.mem_append.mp hp).resolve_left fun hmem => hincludes ⟨p, hmem, he⟩, he⟩
    obtain ⟨front, p, back, hsplit, hfront, e, he⟩ := exists_first_of_exists hexcludes
    obtain ⟨f, hf, hheld⟩ := (NameFilter.holds_empty s.options locale).exists_foldlM_addInclude hall
    obtain ⟨g, hg, hheld'⟩ := hheld.exists_foldlM_addExclude (hreadable front hfront)
    refine ⟨s.includes ++ front, p, back, e, by simp [hsplit], ?_, he, ?_⟩
    · exact List.forall_mem_append.mpr ⟨hall, hreadable front hfront⟩
    · rw [filter, NameFilter.ofPatterns, hf, hsplit]
      exact foldlM_eq_error_of_step hg (hheld'.addExclude_eq_error he) back

namespace Form

/-- The line that a pattern is printed as for another program. WQL has no bracket lists. -/
inductive Shows : Form → Bytes → Bytes → Prop
  | dos {p : Bytes} {items : List Item} (hparse : Pattern.parse p = .ok items) :
      Shows .dos p (Utf8.encodeAll (Rendering.Dos.codePoints items))
  | wql {p : Bytes} {items : List Item} (hparse : Pattern.parse p = .ok items)
      (hexact : ∀ members, .oneOf members ∉ items) :
      Shows .wql p (Utf8.encodeAll (Rendering.Wql.codePoints items))

/-- Why a pattern is not printed: it is malformed, or it has a bracket list and the form is WQL. -/
inductive Refuses : Form → Bytes → Rendering.Error → Prop
  | malformed {form : Form} {p : Bytes} {e : SyntaxError} (hparse : Pattern.parse p = .error e) :
      Refuses form p (.malformed e)
  | list {p : Bytes} {items : List Item} {members : List Member} (hparse : Pattern.parse p = .ok items)
      (hlist : .oneOf members ∈ items) : Refuses .wql p (.inexact ⟨p, some Rendering.wqlName⟩)

theorem render_dos (host : Host) (settings : Settings) (p : Bytes) :
    (∃ line, dos.render host settings p = .ok line ∧ dos.Shows p line) ∨
      ∃ e, dos.render host settings p = .error e ∧ dos.Refuses p e := by
  rw [render, Rendering.dos]
  cases hparse : Pattern.parse p with
  | error e => exact .inr ⟨_, rfl, .malformed hparse⟩
  | ok items => exact .inl ⟨_, rfl, .dos hparse⟩

theorem render_wql (host : Host) (settings : Settings) (p : Bytes) :
    (∃ line, wql.render host settings p = .ok line ∧ wql.Shows p line) ∨
      ∃ e, wql.render host settings p = .error e ∧ wql.Refuses p e := by
  rw [render, Rendering.exactWql, Rendering.wql]
  cases hparse : Pattern.parse p with
  | error e => exact .inr ⟨_, rfl, .malformed hparse⟩
  | ok items =>
    simp only [Except.map]
    cases hfilter : Rendering.Wql.needsFilter items with
    | true =>
      obtain ⟨members, hlist⟩ := Rendering.Wql.needsFilter_iff.mp hfilter
      exact .inr ⟨_, rfl, .list hparse hlist⟩
    | false =>
      refine .inl ⟨_, rfl, .wql hparse fun members hmem => ?_⟩
      have hneeded := Rendering.Wql.needsFilter_iff.mpr ⟨members, hmem⟩
      exact Bool.noConfusion (hfilter.symm.trans hneeded)

end Form

namespace Conversion

/-- Patterns are printed one after the other, up to the first that is refused. -/
theorem ofPatterns_cases {render : Bytes → Except Rendering.Error Bytes} {Shows : Bytes → Bytes → Prop}
    {Refuses : Bytes → Rendering.Error → Prop}
    (hrender : ∀ p, (∃ line, render p = .ok line ∧ Shows p line) ∨ ∃ e, render p = .error e ∧ Refuses p e)
    (patterns : List Bytes) :
    (∃ lines, ofPatterns render patterns = ⟨lines, none⟩ ∧ List.Forall₂ Shows patterns lines) ∨
      ∃ front p back lines e, patterns = front ++ p :: back ∧ ofPatterns render patterns = ⟨lines, some e⟩ ∧
        List.Forall₂ Shows front lines ∧ Refuses p e := by
  induction patterns with
  | nil => exact .inl ⟨[], rfl, .nil⟩
  | cons p patterns ih =>
    rw [ofPatterns]
    rcases hrender p with ⟨line, hline, hshows⟩ | ⟨e, he, hrefuses⟩
    · rw [hline]
      rcases ih with ⟨lines, hlines, hall⟩ | ⟨front, q, back, lines, e, rfl, hlines, hfront, hrefuses⟩
      · exact .inl ⟨line :: lines, by simp [hlines], .cons hshows hall⟩
      · exact .inr ⟨p :: front, q, back, line :: lines, e, rfl, by simp [hlines], .cons hshows hfront, hrefuses⟩
    · rw [he]
      exact .inr ⟨[], p, patterns, [], e, rfl, rfl, .nil, hrefuses⟩

end Conversion

/-- The settings ask for DOS patterns or WQL operands, and for no conversion that goes before these. -/
structure Settings.Exports (s : Settings) : Prop where
  hasWildcards : s.hasWildcards = false
  escape : s.escape = false
  unescape : s.unescape = false
  regex : s.regex = false
  asked : s.dos = true ∨ s.wql = true

/-- The form in which patterns are printed for another program. DOS patterns go before WQL operands. -/
def Settings.exportForm (s : Settings) : Form :=
  if s.dos then .dos else .wql

/-- The text of an error that ends a run. -/
def errorText (message : Bytes) : Bytes :=
  Bytes.ascii "wcmatch: error: " ++ message ++ Bytes.ascii "\n\n"

/-- A run that ends behind its options: no source is opened or read after them. -/
def Session.ended (s : Session) (status : Nat) (stdout stderr : Bytes) : Outcome :=
  ⟨status, stdout, s.reports.reverse.flatten ++ stderr, s.consulted.reverse, s.loaded.reverse⟩

section Runs

open Rendering (wqlName)

variable {env : Environment} {arguments : List Bytes} {s : Session}

theorem Settings.Exports.task {settings : Settings} (h : settings.Exports) :
    settings.task = .convert settings.exportForm := by
  rw [Settings.task, exportForm, h.hasWildcards, h.escape, h.unescape, h.regex]
  rcases h.asked with hdos | hwql
  · simp [hdos]
  · cases settings.dos <;> simp [hwql]

theorem Settings.render_exportForm (host : Host) (settings : Settings) (p : Bytes) :
    (∃ line, settings.exportForm.render host settings p = .ok line ∧ settings.exportForm.Shows p line) ∨
      ∃ e, settings.exportForm.render host settings p = .error e ∧ settings.exportForm.Refuses p e := by
  rw [exportForm]
  split
  · exact Form.render_dos host settings p
  · exact Form.render_wql host settings p

theorem Session.fail_eq_ended (s : Session) (what : Bytes) : s.fail what = s.ended 2 [] (errorText what) := by
  simp [fail, stop, report, ended, errorText]

theorem Session.ofArguments_of_afterOptions (h : afterOptions env arguments = .ok s)
    (hready : s.settings.promoteOperand.converts = false ∨ s.settings.promoteOperand.includes ≠ []) :
    ofArguments env arguments = .ok { s with settings := s.settings.promoteOperand } := by
  have hsettle : s.settle = .ok { s with settings := s.settings.promoteOperand } := by
    refine if_neg ?_
    rw [Bool.and_eq_true, List.isEmpty_iff, not_and_or, Bool.not_eq_true]
    exact hready.symm
  rw [ofArguments_eq_settle, h]
  exact hsettle

theorem run_eq_convert {form : Form} (h : Session.ofArguments env arguments = .ok s)
    (htask : s.settings.task = .convert form) : run env arguments = s.convert env form := by
  unfold run
  rw [h]
  dsimp only
  rw [htask]

/-- Options are carried out without a look at standard input. -/
theorem Config.loadNested_stdin (env : Environment) (stdin : Delivery) (room : Nat) :
    loadNested { env with stdin := stdin } room = loadNested env room := by
  induction room with
  | zero => rfl
  | succ room ih =>
    funext name s
    rw [loadNested, loadNested, ih]
    rfl

theorem Session.afterOptions_stdin (env : Environment) (stdin : Delivery) (arguments : List Bytes) :
    afterOptions { env with stdin := stdin } arguments = afterOptions env arguments := by
  rw [afterOptions, afterOptions, Config.loadNested_stdin]
  rfl

theorem run_select_of_filter_error {e : SyntaxError} (h : Session.afterOptions env arguments = .ok s)
    (hselect : s.settings.promoteOperand.converts = false) 
    (hfilter : s.settings.promoteOperand.filter env.host.locale = .error e) :
    run env arguments = s.ended 2 [] (errorText e.message) := by
  rw [run_eq_select (Session.ofArguments_of_afterOptions h (.inl hselect)) hselect, Session.select, hfilter]
  exact Session.fail_eq_ended _ e.message

theorem run_convert_of_exports (h : Session.afterOptions env arguments = .ok s)
    (hexports : s.settings.promoteOperand.Exports) (hincludes : s.settings.promoteOperand.includes ≠ []) :
    run env arguments =
      { s with settings := s.settings.promoteOperand }.convert env s.settings.promoteOperand.exportForm :=
  run_eq_convert (Session.ofArguments_of_afterOptions h (.inr hincludes)) hexports.task

/-- A run whose options are accepted, in which a pattern is refused. Where names are selected and a pattern is
malformed, nothing is printed and no name is read, whatever the other patterns and the inputs are; the error is that
of the first malformed pattern. Where patterns are printed for DOS or WQL, there is one line for each pattern up to
the first that is refused; its error is reported, and without one the run succeeds. -/
theorem run_refuses_patterns (h : Session.afterOptions env arguments = .ok s) :
    let settings := s.settings.promoteOperand
    (settings.converts = false → (∃ p ∈ settings.includes ++ settings.excludes, ∃ e, Pattern.parse p = .error e) →
      (∃ front p back e, settings.includes ++ settings.excludes = front ++ p :: back ∧
        (∀ q ∈ front, ∃ items, Pattern.parse q = .ok items) ∧ Pattern.parse p = .error e ∧
        run env arguments = s.ended 2 [] (errorText e.message)) ∧
      ∀ stdin, run { env with stdin := stdin } arguments = run env arguments) ∧
    (settings.Exports → settings.includes ≠ [] →
      (∃ lines, List.Forall₂ settings.exportForm.Shows settings.includes lines ∧
        run env arguments = s.ended 0 (unlines lines) []) ∨
      ∃ front p back lines e, settings.includes = front ++ p :: back ∧
        List.Forall₂ settings.exportForm.Shows front lines ∧ settings.exportForm.Refuses p e ∧
        run env arguments = s.ended 2 (unlines lines) (errorText e.message)) := by
  intro settings
  refine ⟨fun hselect hmalformed => ?_, fun hexports hincludes => ?_⟩
  · obtain ⟨front, p, back, e, hsplit, hfront, he, hfilter⟩ := Settings.exists_filter_error hmalformed env.host.locale
    have hrun := run_select_of_filter_error h hselect hfilter
    refine ⟨⟨front, p, back, e, hsplit, hfront, he, hrun⟩, fun stdin => ?_⟩
    have hother := (Session.afterOptions_stdin env stdin arguments).trans h
    rw [run_select_of_filter_error hother hselect hfilter, hrun]
  · have hready := Session.ofArguments_of_afterOptions h (.inr hincludes)
    have hwarnings : s.warnings = 0 := (Session.warnings_ofArguments hready :)
    rw [run_convert_of_exports h hexports hincludes, Session.convert]
    rcases Conversion.ofPatterns_cases (settings.render_exportForm env.host) settings.includes with
      ⟨lines, hlines, hshown⟩ | ⟨front, p, back, lines, e, hsplit, hlines, hshown, hrefused⟩
    · refine .inl ⟨lines, hshown, ?_⟩
      simp only [settings] at hlines
      simp [hlines, Session.stop, Session.ended, hwarnings]
    · refine .inr ⟨front, p, back, lines, e, hsplit, hshown, hrefused, ?_⟩
      simp only [settings] at hlines
      simp only [hlines, Session.fail_eq_ended]
      rfl

/-- A pattern to exclude is malformed, so the file `f` is not read. Of three patterns for WQL the second has a
bracket list, so the first one is printed and the third, which is malformed, is not looked at. -/
theorem run_refuses_patterns_exclude :
    let env : Environment :=
      { home := none
        stdin := Bytes.ascii "ab\n"
        opened := fun path => if path = Bytes.ascii "f" then .file (Bytes.ascii "ab\n") else .refused .missing }
    let printing := ["--wql", "-ea*", "-e[ab]", "-e[b"].map Bytes.ascii
    run env (["-x", "b*", "-x", "[z-a]", "a*", "f"].map Bytes.ascii) =
        ⟨2, [], errorText (SyntaxError.message ⟨.invertedRange, Bytes.ascii "[z-a]", 1⟩), [], []⟩ ∧
      ∃ front p back lines e, ["a*", "[ab]", "[b"].map Bytes.ascii = front ++ p :: back ∧
        List.Forall₂ Form.wql.Shows front lines ∧ Form.wql.Refuses p e ∧
        unlines lines = Bytes.ascii "a%\n" ∧ e.message = ConversionError.message ⟨Bytes.ascii "[ab]", some wqlName⟩ ∧
        (run env printing).status = 2 := by
  intro env printing
  constructor
  · let e : SyntaxError := ⟨.invertedRange, Bytes.ascii "[z-a]", 1⟩
    let patterns := ["a*", "b*", "[z-a]"].map Bytes.ascii
    have h : Session.afterOptions env (["-x", "b*", "-x", "[z-a]", "a*", "f"].map Bytes.ascii) = .ok
        { settings :=
            { excludes := ["b*", "[z-a]"].map Bytes.ascii
              operands := ["a*", "f"].map Bytes.ascii } } := by
      decide +kernel
    have hparse : Pattern.parse (Bytes.ascii "[z-a]") = .error e := by decide +kernel
    have honly : ∀ q ∈ patterns,
        (Pattern.parse q).map (fun _ => ()) = .ok () ∨ Pattern.parse q = .error e := by
      decide +kernel
    obtain ⟨front, p, back, e', hsplit, -, he', hrun⟩ :=
      ((run_refuses_patterns h).1 rfl ⟨_, by decide, e, hparse⟩).1
    have hpatterns : patterns = front ++ p :: back := hsplit
    have hmalformed := honly p (hpatterns ▸ List.mem_append_right front List.mem_cons_self)
    rw [he'] at hmalformed
    rcases hmalformed with hok | herror
    · cases hok
    · obtain rfl : e' = e := Except.error.inj herror
      exact hrun
  · have h : Session.afterOptions env printing = .ok
        { settings := { wql := true, includes := ["a*", "[ab]", "[b"].map Bytes.ascii } } := by
      decide +kernel
    have hrun : run env printing = ⟨2, Bytes.ascii "a%\n", errorText (ConversionError.message
        ⟨Bytes.ascii "[ab]", some wqlName⟩), [], []⟩ := by
      decide +kernel
    have hexports : (Settings.Exports { wql := true, includes := ["a*", "[ab]", "[b"].map Bytes.ascii }) :=
      ⟨rfl, rfl, rfl, rfl, .inr rfl⟩
    rcases (run_refuses_patterns h).2 hexports (List.cons_ne_nil _ _) with
      ⟨lines, -, hended⟩ | ⟨front, p, back, lines, e, hsplit, hshown, hrefused, hended⟩
    · have hstatus := congrArg Outcome.status (hrun.symm.trans hended)
      cases hstatus
    · have hsame := hrun.symm.trans hended
      have hstdout := congrArg Outcome.stdout hsame
      have hstderr : errorText _ = errorText e.message := congrArg Outcome.stderr hsame
      refine ⟨front, p, back, lines, e, hsplit, hshown, hrefused, hstdout.symm, ?_, congrArg Outcome.status hended⟩
      exact (List.append_cancel_left (List.append_cancel_right hstderr)).symm

end Runs

end Tool

end NameGlob
