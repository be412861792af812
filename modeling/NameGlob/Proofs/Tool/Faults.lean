import NameGlob.Proofs.Tool.Refusals
import NameGlob.Proofs.Tool.Unfolding

/-!
# Faulty lines of configuration files

A line of a configuration file that holds no long option is faulty. It is reported with its number in the file and
the reading goes on, so one run shows all faulty lines. The run ends behind the last line. A file without faulty
lines reports nothing, and behind it a misuse ends the run at once again.
-/

namespace NameGlob.Tool

/-- The names of the long options. -/
def longNames : List String :=
  [ "config", "count", "culture-invariant", "decompress", "dos", "escape", "exclude", "has-wildcards", "help",
    "ignore-case", "include", "invert-match", "regex", "unescape", "version", "wql" ]

/-- The names of the long options that may hold a value behind an `=`. -/
def valuedNames : List String :=
  ["config", "escape", "exclude", "include"]

/-- A long option, without its dashes. -/
def IsLongOption (option : Bytes) : Prop :=
  (∃ name ∈ longNames, option = Bytes.ascii name) ∨ ∃ name ∈ valuedNames, Bytes.ascii name ++ [0x3D] <+: option

instance (option : Bytes) : Decidable (IsLongOption option) :=
  inferInstanceAs (Decidable (_ ∨ _))

instance : DecidablePred Directive.IsChange
  | .set flag => isTrue (.set flag)
  | .keep chars => isTrue (.keep chars)
  | .pattern role value => isTrue (.pattern role value)
  | .config _ | .help | .version | .misuse _ | .operand _ => isFalse nofun

namespace Directive

variable {option value : Bytes}

theorem ofLongName_of_not_isLongOption (h : ¬ IsLongOption option) :
    ofLongName option = ([.misuse (.unknownLong option)], .options) := by
  have hname : ∀ name ∈ longNames, option ≠ Bytes.ascii name := fun name hmem heq => h (.inl ⟨name, hmem, heq⟩)
  have hplain : ∀ entry ∈ plainLong, entry.1 ∈ longNames := by decide
  have hnone : plainLong.find? (fun entry => Bytes.ascii entry.1 = option) = none := by
    rw [List.find?_eq_none]
    intro entry hentry
    simpa using (hname entry.1 (hplain entry hentry)).symm
  rw [ofLongName, if_neg (hname "include" (by decide)), if_neg (hname "exclude" (by decide)), hnone]

theorem ofLongValue_of_not_isLongOption (h : ¬ IsLongOption (option ++ 0x3D :: value)) :
    ofLongValue option value = ([.misuse (.unknownLong (option ++ 0x3D :: value))], .options) := by
  have hname : ∀ name ∈ valuedNames, option ≠ Bytes.ascii name := by
    rintro name hmem rfl
    exact h (.inr ⟨name, hmem, value, (List.append_cons _ _ _).symm⟩)
  rw [ofLongValue, if_neg (hname "config" (by decide)), if_neg (hname "escape" (by decide)),
    if_neg (hname "include" (by decide)), if_neg (hname "exclude" (by decide))]

/-- What is no long option is a misuse, with a value or without. -/
theorem ofLong_of_not_isLongOption (h : ¬ IsLongOption option) :
    ofLong option = ([.misuse (.unknownLong option)], .options) := by
  cases hvalue : option.dropWhile (· != 0x3D) with
  | nil =>
    rw [ofLong, hvalue]
    exact ofLongName_of_not_isLongOption h
  | cons b value =>
    obtain ⟨name, rfl, -, hlong⟩ := ofLong_of_dropWhile hvalue
    rw [hlong]
    exact ofLongValue_of_not_isLongOption h

end Directive

namespace Config

/-- A trimmed line asks for a file, for help or for the version. -/
def IsCommand (line : Bytes) : Prop :=
  (∃ name ∈ ["config", "help", "version"], line = Bytes.ascii name) ∨ Bytes.ascii "config=" <+: line

instance (line : Bytes) : Decidable (IsCommand line) :=
  inferInstanceAs (Decidable (_ ∨ _))

/-- A trimmed line holds something else than a long option. -/
def IsFaulty (line : Bytes) : Prop :=
  holdsOption line = true ∧ ¬ IsLongOption line

instance (line : Bytes) : Decidable (IsFaulty line) :=
  inferInstanceAs (Decidable (_ ∧ _))

/-- The faulty lines of a file and their numbers, where the first line of the file has the number `number`. -/
def faults (number : Nat) (lines : List Bytes) : List (Bytes × Nat) :=
  ((lines.map trim).zipIdx number).filter fun line => IsFaulty line.1

/-- The lines of a file that hold a long option. -/
def soundLines (lines : List Bytes) : List Bytes :=
  (optionLines lines).filter fun line => IsLongOption line

/-- What is reported of a faulty line: the misuse, and the place of the line. -/
def faultReports (path : Bytes) (fault : Bytes × Nat) : List Bytes :=
  [ UsageError.message (.unknownLong fault.1),
    Bytes.ascii "wcmatch: error in " ++ path ++ Bytes.ascii " at line " ++ Bytes.decimal fault.2
      ++ Bytes.ascii "\n" ]

section Directives

variable {line : Bytes}

theorem directives_of_not_isLongOption (hnul : (0 : UInt8) ∉ line) (hne : line ≠ []) (h : ¬ IsLongOption line) :
    directives line = [.misuse (.unknownLong line)] := by
  refine directives_eq hnul ?_
  cases line with
  | nil => exact absurd rfl hne
  | cons b rest => exact Directive.ofLong_of_not_isLongOption h

/-- The pattern of a line is its value, even if it is empty: no argument follows the line. -/
theorem directives_pattern (role : Role) {value : Bytes} (hnul : (0 : UInt8) ∉ value) :
    directives (role.longName ++ 0x3D :: value) = [.pattern role value] := by
  have hname : (0 : UInt8) ∉ role.longName := by cases role <;> decide
  have hline : (0 : UInt8) ∉ role.longName ++ 0x3D :: value := List.not_mem_append hname (by simpa using hnul)
  cases value with
  | nil => cases role <;> rfl
  | cons b rest => exact directives_eq hline (ofArgument_longValue role _)

/-- A long option changes the settings, unless it is a command. -/
theorem exists_change_of_isLongOption (hnul : (0 : UInt8) ∉ line) (h : IsLongOption line)
    (hcommand : ¬ IsCommand line) :
    ∃ d : Directive, d.IsChange ∧ directives line = [d] := by
  rcases h with ⟨name, hname, rfl⟩ | ⟨name, hname, value, rfl⟩
  · have hnamed : ∀ name ∈ longNames, IsCommand (Bytes.ascii name) ∨
        ∃ d ∈ directives (Bytes.ascii name), d.IsChange ∧ directives (Bytes.ascii name) = [d] := by
      decide
    obtain ⟨d, -, hd⟩ := (hnamed name hname).resolve_left hcommand
    exact ⟨d, hd⟩
  · rw [← List.append_cons] at hnul hcommand ⊢
    have hvalue : (0 : UInt8) ∉ value := fun hmem => hnul (by simp [hmem])
    simp only [valuedNames, List.mem_cons, List.not_mem_nil, or_false] at hname
    rcases hname with rfl | rfl | rfl | rfl
    · exact absurd (.inr (List.prefix_append _ _)) hcommand
    · exact ⟨.keep value, .keep value, directives_eq hnul rfl⟩
    · exact ⟨.pattern .excluding value, .pattern .excluding value, directives_pattern .excluding hvalue⟩
    · exact ⟨.pattern .including value, .pattern .including value, directives_pattern .including hvalue⟩

theorem trim_sublist (line : Bytes) : (trim line).Sublist line := by
  have hback := (List.dropWhile_sublist isBlank (l := (line.dropWhile isBlank).reverse)).reverse
  rw [List.reverse_reverse] at hback
  exact hback.trans (List.dropWhile_sublist isBlank)

theorem zero_not_mem_of_mem_optionLines {contents : Bytes} (hnul : (0 : UInt8) ∉ contents)
    (h : line ∈ optionLines (Bytes.lines contents)) : (0 : UInt8) ∉ line := by
  obtain ⟨raw, hraw, rfl⟩ := List.mem_map.mp (List.mem_of_mem_filter h)
  have hpart := (trim_sublist raw).trans (Bytes.sublist_of_mem_lines hraw)
  exact fun hzero => hnul (hpart.subset hzero)

end Directives

end Config

/-- The session before the first line of a file that no other file precedes. -/
def Session.opening (env : Environment) (name path : Bytes) : Session :=
  { loaded := [⟨path, 1⟩], consulted := (Config.openOption env name {}).2.consulted }

def Session.reportFault (s : Session) (path : Bytes) (fault : Bytes × Nat) : Session :=
  { s with
    warnings := s.warnings + 1
    reports := (Config.faultReports path fault).reverse ++ s.reports }

/-- The session behind the lines of a file, of which the first has the number `number`. -/
def Session.withLines (s : Session) (path : Bytes) (number : Nat) (lines : List Bytes) : Session :=
  { s with
    settings := Config.applyLines (Config.soundLines lines) s.settings
    warnings := s.warnings + (Config.faults number lines).length
    reports := ((Config.faults number lines).flatMap (Config.faultReports path)).reverse ++ s.reports }

namespace Config

section Lines

variable {env : Environment} {within : Bytes → Session → Except Outcome Session} {path line : Bytes} {number : Nat}
  {rest : List Bytes} {s : Session}

theorem performLines_of_faulty (h : holdsOption (trim line) = true)
    (hd : directives (trim line) = [.misuse (.unknownLong (trim line))]) {faulty : Bool} {s' : Session}
    (hrest : performLines (Session.perform env true within) path (number + 1) rest
      (s.reportFault path (trim line, number)) = .ok (faulty, s')) :
    performLines (Session.perform env true within) path number (line :: rest) s = .ok (true, s') := by
  rw [performLines]
  dsimp only
  rw [if_pos h, hd]
  show (if s.warnings < s.warnings + 1 then _ else _) = _
  rw [if_pos (Nat.lt_succ_self _)]
  show (performLines _ path (number + 1) rest (s.reportFault path (trim line, number)) >>= _) = _
  rw [hrest]
  rfl

theorem faults_cons_of_faulty (h : IsFaulty (trim line)) :
    faults number (line :: rest) = (trim line, number) :: faults (number + 1) rest :=
  List.filter_cons_of_pos (decide_eq_true h)

theorem faults_cons_of_not_faulty (h : ¬ IsFaulty (trim line)) :
    faults number (line :: rest) = faults (number + 1) rest :=
  List.filter_cons_of_neg fun hfaulty => h (of_decide_eq_true hfaulty)

theorem withLines_of_blank (h : ¬ holdsOption (trim line) = true) :
    s.withLines path number (line :: rest) = s.withLines path (number + 1) rest := by
  have hsound : ¬ IsFaulty (trim line) := fun hfaulty => h hfaulty.1
  rw [Session.withLines, faults_cons_of_not_faulty hsound, soundLines, optionLines_cons_of_blank h]
  rfl

theorem withLines_of_sound (h : holdsOption (trim line) = true) (hlong : IsLongOption (trim line)) {d : Directive}
    (hd : directives (trim line) = [d]) :
    s.withLines path number (line :: rest) =
      { s with settings := d.apply s.settings }.withLines path (number + 1) rest := by
  have hsound : ¬ IsFaulty (trim line) := fun hfaulty => hfaulty.2 hlong
  have hkept : soundLines (line :: rest) = trim line :: soundLines rest := by
    rw [soundLines, optionLines_cons h]
    exact List.filter_cons_of_pos (decide_eq_true hlong)
  rw [Session.withLines, faults_cons_of_not_faulty hsound, hkept, applyLines, List.flatMap_cons, hd]
  rfl

theorem withLines_of_faulty (h : IsFaulty (trim line)) :
    s.withLines path number (line :: rest) =
      (s.reportFault path (trim line, number)).withLines path (number + 1) rest := by
  have hskipped : soundLines (line :: rest) = soundLines rest := by
    rw [soundLines, optionLines_cons h.1]
    exact List.filter_cons_of_neg fun hlong => h.2 (of_decide_eq_true hlong)
  rw [Session.withLines, faults_cons_of_faulty h, hskipped, Session.withLines, List.length_cons,
    List.flatMap_cons, List.reverse_append, List.append_assoc, Nat.add_comm _ 1, ← Nat.add_assoc]
  rfl

/-- Each line of a file does its part and the next line follows, whether it is faulty or not. -/
theorem performLines_eq {lines : List Bytes} (h : ∀ line ∈ optionLines lines, (0 : UInt8) ∉ line ∧ ¬ IsCommand line) :
    performLines (Session.perform env true within) path number lines s =
      .ok (!(faults number lines).isEmpty, s.withLines path number lines) := by
  -- the number goes on with every line, the session only with those that hold an option
  induction lines generalizing number s with
  | nil => rfl
  | cons line rest ih =>
    by_cases hline : holdsOption (trim line) = true
    · rw [optionLines_cons hline, List.forall_mem_cons] at h
      obtain ⟨⟨hnul, hcommand⟩, hrest⟩ := h
      by_cases hlong : IsLongOption (trim line)
      · obtain ⟨d, hchange, hd⟩ := exists_change_of_isLongOption hnul hlong hcommand
        have hsound : ¬ IsFaulty (trim line) := fun hfaulty => hfaulty.2 hlong
        rw [performLines_of_change hline hchange hd, ih hrest, faults_cons_of_not_faulty hsound,
          withLines_of_sound hline hlong hd]
      · have hne : trim line ≠ [] := by
          intro hnil
          rw [hnil] at hline
          exact Bool.noConfusion hline
        have hd := directives_of_not_isLongOption hnul hne hlong
        rw [performLines_of_faulty hline hd (ih hrest), faults_cons_of_faulty ⟨hline, hlong⟩,
          withLines_of_faulty ⟨hline, hlong⟩]
        rfl
    · rw [optionLines_cons_of_blank hline] at h
      have hsound : ¬ IsFaulty (trim line) := fun hfaulty => hline hfaulty.1
      rw [performLines_of_blank hline, ih h, faults_cons_of_not_faulty hsound, withLines_of_blank hline]

theorem exists_asks_of_isLongOption {line : Bytes} (hnul : (0 : UInt8) ∉ line) (h : IsLongOption line)
    (hcommand : ¬ IsCommand line) :
    ∃ d : Directive, d.IsChange ∧ directives line = [d] ∧ Asks [dashed line] [d] := by
  obtain ⟨d, hchange, hd⟩ := exists_change_of_isLongOption hnul h hcommand
  refine ⟨d, hchange, hd, ?_⟩
  rw [← untilNul_dashed hnul]
  exact asks_line_iff.mpr ⟨hd, List.forall_mem_singleton.mpr hchange.isProper⟩

/-- Lines that ask for one change of the settings each leave the settings that they ask for. -/
theorem exists_asks_applyLines {lines : List Bytes}
    (h : ∀ line ∈ lines, ∃ d : Directive, d.IsChange ∧ directives line = [d] ∧ Asks [dashed line] [d])
    (settings : Settings) :
    ∃ ds, List.Forall₂ (fun line d => Asks [dashed line] [d]) lines ds ∧
      Settings.Extends settings ds (applyLines lines settings) := by
  induction lines generalizing settings with
  | nil => exact ⟨[], .nil, .refl settings⟩
  | cons line rest ih =>
    rw [List.forall_mem_cons] at h
    obtain ⟨⟨d, hchange, hd, hasks⟩, hrest⟩ := h
    obtain ⟨ds, hall, hextends⟩ := ih hrest (d.apply settings)
    have hfirst := Settings.extends_foldl_apply (List.forall_mem_singleton.mpr hchange) settings
    refine ⟨d :: ds, .cons hasks hall, ?_⟩
    rw [applyLines, List.flatMap_cons, hd]
    exact hfirst.trans hextends

/-- The lines of the first file that is opened do their part. Then the run ends, if one of them was faulty. -/
theorem loadNested_eq {name contents : Bytes}
    (hfile : (openOption env name {}).1 = .ok (path, .file contents))
    (h : ∀ line ∈ optionLines (Bytes.lines contents), (0 : UInt8) ∉ line ∧ ¬ IsCommand line) :
    loadNested env maxDepth name {} =
      let read := (Session.opening env name path).withLines path 1 (Bytes.lines contents)
      if faults 1 (Bytes.lines contents) = [] then .ok read else .error (read.stop 2 []) := by
  have hopening : { ({} : Session) with
      loaded := [⟨path, 1⟩], consulted := (openOption env name {}).2.consulted } = Session.opening env name path := rfl
  rw [loadNested_of_file hfile List.not_mem_nil, hopening, performLines_eq h]
  generalize (Session.opening env name path).withLines path 1 (Bytes.lines contents) = read
  cases faults 1 (Bytes.lines contents) with
  | nil => rfl
  | cons fault others => rfl

end Lines

end Config

/-- The argument holds an unknown option, and before it only letters of flags. -/
inductive Misuses : UsageError → Bytes → Prop
  | long (flags : List LetterFlag) {option : Bytes} (hne : option ≠ []) (h : ¬ IsLongOption option) :
      Misuses (.unknownLong option) (group flags (0x2D :: option))
  | short (flags : List LetterFlag) {letter : UInt8} (h : letter ∉ Bytes.ascii "-cehIiVvxz") (rest : Bytes) :
      Misuses (.unknownShort letter) (group flags (letter :: rest))

theorem Misuses.exists_ofArgument {e : UsageError} {bad : Bytes} (h : Misuses e bad) :
    ∃ flags more expecting, Directive.ofArgument bad = (settingFlags flags ++ .misuse e :: more, expecting) := by
  cases h with
  | @long flags option hne h =>
    refine ⟨flags, [], .options, ?_⟩
    cases option with
    | nil => exact absurd rfl hne
    | cons b rest =>
      have hlong : Directive.ofLetters (0x2D :: b :: rest) = Directive.ofLong (b :: rest) := rfl
      rw [ofArgument_group (.inr (List.cons_ne_nil _ _)), hlong, Directive.ofLong_of_not_isLongOption h]
  | @short flags letter h rest =>
    simp only [Bytes.ascii] at h
    have hplain : isPlainLetter letter = true := by
      simp_all [isPlainLetter, Directive.roleOf?]
    have hletter : Directive.ofLetter letter = .misuse (.unknownShort letter) := by
      simp_all [Directive.ofLetter]
    refine ⟨flags, (Directive.ofLetters rest).1, (Directive.ofLetters rest).2, ?_⟩
    rw [ofArgument_group (.inr (List.cons_ne_nil _ _)), ofLetters_cons_of_plain hplain, hletter]

namespace Session

open Config

variable {env : Environment} {before : List Bytes} {name path contents bad : Bytes} {e : UsageError} {s : Session}

theorem run_of_afterOptions_error {arguments : List Bytes} {o : Outcome} (h : afterOptions env arguments = .error o) :
    run env arguments = o := by
  rw [run, ofArguments_eq_settle, h]
  rfl

/-- A misuse on the command line ends the run at once, whatever follows. -/
theorem afterOptions_misuse (hbefore : Expecting.after (before.map Bytes.untilNul) = .options)
    (hs : afterOptions env before = .ok s) (hbad : Misuses e bad) (hnul : (0 : UInt8) ∉ bad) (after : List Bytes) :
    afterOptions env (before ++ bad :: after) = .error (s.ended 2 [] e.message) := by
  obtain ⟨flags, more, expecting, hargument⟩ := hbad.exists_ofArgument
  have hdirectives : Directive.ofArguments (bad :: after) =
      settingFlags flags ++ .misuse e :: (more ++ Directive.ofArgumentsFrom expecting (after.map Bytes.untilNul)) := by
    rw [Directive.ofArguments, List.map_cons, Bytes.untilNul_eq_self hnul, ofArgumentsFrom_of_ofArgument hargument,
      List.append_assoc, List.cons_append]
  rw [afterOptions_append hbefore, hs, hdirectives]
  show perform env false _ _ s = _
  rw [perform_append, perform_changes isChange_of_settingFlags]
  show Except.error (stop _ 2 []) = _
  simp [stop, report, ended]

/-- Let the first option of a command line name a readable configuration file, in which no line asks for a file, for
help or for the version. Each line with a long option asks for one directive, as it would behind two dashes on the
command line, and these directives are what the file does to the settings. Each other line that is neither empty nor
a comment is reported, with the path that was opened and the number of the line among all lines of the file, in
their order. If there is such a line, the run then ends without a look at its input. Otherwise nothing is reported,
the run goes on, and a misuse that is met later on the command line ends it at once. -/
theorem config_faults_located (hname : (0 : UInt8) ∉ name)
    (hfile : (openOption env name {}).1 = .ok (path, .file contents)) (hnul : (0 : UInt8) ∉ contents)
    (hcommands : ∀ line ∈ optionLines (Bytes.lines contents), ¬ IsCommand line) (rest : List Bytes) :
    let config := dashed (Bytes.ascii "config=" ++ name)
    let lines := Bytes.lines contents
    let located := faults 1 lines
    let read := { opening env name path with settings := applyLines (soundLines lines) {} }
    performLines (perform env true (loadNested env 1)) path 1 lines (opening env name path) =
      .ok (!located.isEmpty,
        { read with
          warnings := located.length
          reports := (located.flatMap (faultReports path)).reverse }) ∧
    (∃ ds, List.Forall₂ (fun line d => Asks [dashed line] [d]) (soundLines lines) ds ∧
      Settings.Extends {} ds read.settings) ∧
    (located ≠ [] →
      run env (config :: rest) = read.ended 2 [] (located.flatMap (faultReports path)).flatten) ∧
    (located = [] →
      afterOptions env (config :: rest) =
        perform env false (loadNested env maxDepth) (Directive.ofArguments rest) read ∧
      ∀ between bad after e s, Expecting.after ((config :: between).map Bytes.untilNul) = .options →
        afterOptions env (config :: between) = .ok s → Misuses e bad → (0 : UInt8) ∉ bad →
        run env (config :: between ++ bad :: after) = s.ended 2 [] e.message) := by
  intro config lines located read
  have hlines : ∀ line ∈ optionLines lines, (0 : UInt8) ∉ line ∧ ¬ IsCommand line :=
    fun line hline => ⟨zero_not_mem_of_mem_optionLines hnul hline, hcommands line hline⟩
  have hbehind : (opening env name path).withLines path 1 lines =
      { read with
        warnings := located.length
        reports := (located.flatMap (faultReports path)).reverse } := by
    simp [withLines, opening, read, located]
  have hsound : ∀ line ∈ soundLines lines,
      ∃ d : Directive, d.IsChange ∧ directives line = [d] ∧ Asks [dashed line] [d] := by
    intro line hline
    obtain ⟨hoption, hlong⟩ := List.mem_filter.mp hline
    exact exists_asks_of_isLongOption (hlines line hoption).1 (of_decide_eq_true hlong) (hlines line hoption).2
  have hload := loadNested_eq hfile hlines
  have hconfig : afterOptions env (config :: rest) = loadNested env maxDepth name {} >>=
      perform env false (loadNested env maxDepth) (Directive.ofArguments rest) :=
    @afterOptions_config env [] name rfl hname rest
  refine ⟨?_, exists_asks_applyLines hsound {}, fun hfaulty => ?_,
    fun hnone => ⟨?_, fun between bad after e s hbefore hs hbad hnul => ?_⟩⟩
  · rw [performLines_eq hlines, hbehind]
  · rw [hload] at hconfig
    dsimp only at hconfig
    rw [if_neg hfaulty, hbehind] at hconfig
    rw [run_of_afterOptions_error hconfig]
    simp [stop, ended, read, opening]
  · dsimp only at hload
    rw [if_pos hnone, hbehind, hnone] at hload
    rw [hconfig, hload]
    rfl
  · exact run_of_afterOptions_error (afterOptions_misuse hbefore hs hbad hnul after)

/-- The file `f` is found in the home directory. Three of its lines are faulty, among comments, empty lines and
options, of which `exclude` adds the empty pattern. The file `g` has no faulty line, so its options are in force, and
the unknown letter behind it ends the run, before the help is asked for. -/
theorem config_faults_located_home :
    let f := Bytes.ascii "# names\n\n  count \r\ncoutn\n\tinclude=a*\n-x\nexclude\n  help=me  "
    let g := Bytes.ascii "ignore-case\n\n# flags\n include=b*\n"
    let env : Environment :=
      { home := some (Bytes.ascii "/h")
        stdin := Bytes.ascii "a\n"
        opened := fun path =>
          if path = Bytes.ascii "/h/f" then .file f
          else if path = Bytes.ascii "g" then .file g
          else .refused .missing }
    let located := [(Bytes.ascii "coutn", 4), (Bytes.ascii "-x", 6), (Bytes.ascii "help=me", 8)]
    (∃ ds, List.Forall₂ (fun line d => Asks [dashed line] [d]) (["count", "include=a*", "exclude"].map Bytes.ascii) ds ∧
        Settings.Extends {} ds { count := true, includes := [Bytes.ascii "a*"], excludes := [[]] }) ∧
      run env (["--config=f", "-h"].map Bytes.ascii) =
        ⟨2, [], (located.flatMap (faultReports (Bytes.ascii "/h/f"))).flatten,
          ["f", "/h/f"].map (.path ∘ Bytes.ascii), [⟨Bytes.ascii "/h/f", 1⟩]⟩ ∧
      (∃ s, afterOptions env [Bytes.ascii "--config=g"] = .ok s ∧
        s.settings = { ignoreCase := true, includes := [Bytes.ascii "b*"] }) ∧
      run env (["--config=g", "-e", "*", "-cQ", "--help"].map Bytes.ascii) =
        ⟨2, [], UsageError.message (.unknownShort 0x51), [.path (Bytes.ascii "g")], [⟨Bytes.ascii "g", 1⟩]⟩ := by
  intro f g env located
  rw [← and_assoc]
  constructor
  · have hname : (0 : UInt8) ∉ Bytes.ascii "f" := by decide
    have hfile : (openOption env (Bytes.ascii "f") {}).1 = .ok (Bytes.ascii "/h/f", .file f) := by decide +kernel
    have hcommands : ∀ line ∈ optionLines (Bytes.lines f), ¬ IsCommand line := by decide +kernel
    have hlocated : faults 1 (Bytes.lines f) = located := by decide +kernel
    have hsound : soundLines (Bytes.lines f) = ["count", "include=a*", "exclude"].map Bytes.ascii := by decide +kernel
    obtain ⟨-, hasks, hrun, -⟩ :=
      config_faults_located hname hfile (by decide +kernel) hcommands [Bytes.ascii "-h"]
    rw [hlocated] at hrun
    dsimp only at hasks
    rw [hsound] at hasks
    exact ⟨hasks, hrun (List.cons_ne_nil _ _)⟩
  · have hname : (0 : UInt8) ∉ Bytes.ascii "g" := by decide
    have hfile : (openOption env (Bytes.ascii "g") {}).1 = .ok (Bytes.ascii "g", .file g) := by decide +kernel
    have hcommands : ∀ line ∈ optionLines (Bytes.lines g), ¬ IsCommand line := by decide +kernel
    have hlocated : faults 1 (Bytes.lines g) = [] := by decide +kernel
    obtain ⟨hsettings, hlater⟩ :=
      (config_faults_located hname hfile (by decide +kernel) hcommands []).2.2.2 hlocated
    have hbad : Misuses (.unknownShort 0x51) (Bytes.ascii "-cQ") := .short [.count] (by decide) []
    have hs : afterOptions env (["--config=g", "-e", "*"].map Bytes.ascii) = .ok
        { settings := { ignoreCase := true, includes := ["b*", "*"].map Bytes.ascii }
          loaded := [⟨Bytes.ascii "g", 1⟩]
          consulted := [.path (Bytes.ascii "g")] } := by
      decide +kernel
    refine ⟨⟨_, hsettings, by decide +kernel⟩, ?_⟩
    exact hlater (["-e", "*"].map Bytes.ascii) _ [Bytes.ascii "--help"] _ _ (by decide +kernel) hs hbad (by decide)

end Session

end NameGlob.Tool
