import NameGlob.Proofs.Lines.Pieces
import NameGlob.Proofs.Tool.Ahead
import NameGlob.Proofs.Tool.Arguments

/-!
# Configuration files as options

A configuration file whose lines only change settings has the effect of its lines as options on the command line.
It differs from them in one respect: its path counts as read from then on. So the two ways go on alike until the
file is named again, where only the command line that holds its lines reads it.
-/

namespace NameGlob.Tool

/-- The directive does nothing but change the settings. -/
inductive Directive.IsChange : Directive → Prop
  | set (flag : Flag) : IsChange (.set flag)
  | keep (chars : Bytes) : IsChange (.keep chars)
  | pattern (role : Role) (value : Bytes) : IsChange (.pattern role value)

/-- The settings that a directive leaves. -/
def Directive.apply (settings : Settings) : Directive → Settings
  | .set flag => settings.set flag
  | .keep chars => { settings with escape := true, keptChars := chars }
  | .pattern role value => settings.addPattern value role
  | _ => settings

section Changes

variable {env : Environment} {loadConfig : Bytes → Session → Except Outcome Session} {inConfig : Bool}
  {ds : List Directive} {s : Session}

theorem Session.perform_changes (h : ∀ d ∈ ds, d.IsChange) :
    perform env inConfig loadConfig ds s = .ok { s with settings := ds.foldl Directive.apply s.settings } := by
  induction ds generalizing s with
  | nil => rfl
  | cons d rest ih =>
    rw [List.forall_mem_cons] at h
    have hfirst : performOne env inConfig loadConfig s d = .ok { s with settings := d.apply s.settings } := by
      cases h.1 <;> rfl
    rw [perform_cons, hfirst]
    exact ih h.2

end Changes

namespace Config

/-- A line of a configuration file as an argument. -/
def dashed (line : Bytes) : Bytes :=
  0x2D :: 0x2D :: line

/-- A line of a configuration file that only changes settings: a long option without a value, other than those
for files and for help, or one with its value behind an `=`. -/
inductive IsSetting : Bytes → Prop
  | set {name : String} {flag : Flag} (h : (name, .set flag) ∈ Directive.plainLong) : IsSetting (Bytes.ascii name)
  | keep (chars : Bytes) : IsSetting (Bytes.ascii "escape=" ++ chars)
  | pattern (role : Role) {value : Bytes} (h : value ≠ []) : IsSetting (role.longName ++ 0x3D :: value)

/-- The options that the lines of a configuration file hold. -/
def optionLines (lines : List Bytes) : List Bytes :=
  (lines.map trim).filter holdsOption

/-- The settings that the lines of a file leave when they only change settings. -/
def applyLines (lines : List Bytes) (settings : Settings) : Settings :=
  (lines.flatMap directives).foldl Directive.apply settings

variable {line path : Bytes} {lines : List Bytes}

theorem IsSetting.exists_directive (h : IsSetting line) :
    ∃ d : Directive, d.IsChange ∧ Directive.ofArgument (dashed line) = ([d], .options) := by
  cases h with
  | @set name flag h =>
    have hplain : ∀ entry ∈ Directive.plainLong,
        Directive.ofArgument (dashed (Bytes.ascii entry.1)) = ([entry.2], .options) := by decide
    exact ⟨.set flag, .set flag, hplain _ h⟩
  | keep chars => exact ⟨.keep chars, .keep chars, rfl⟩
  | @pattern role value h =>
    refine ⟨.pattern role value, .pattern role value, ?_⟩
    cases value with
    | nil => exact absurd rfl h
    | cons b rest => cases role <;> rfl

/-- A long option with a value is a setting when it only changes the settings. -/
theorem isSetting_of_ofLongValue {option value : Bytes} {d : Directive} (hchange : d.IsChange)
    (h : Directive.ofLongValue option value = ([d], .options)) : IsSetting (option ++ 0x3D :: value) := by
  have hpattern : ∀ role, Directive.ofPatternValue role value = ([d], .options) → value ≠ [] := by
    rintro role h rfl
    cases h
  rw [Directive.ofLongValue] at h
  split at h
  · cases h
    cases hchange
  split at h
  · rename_i hname
    subst hname
    exact .keep value
  split at h
  · rename_i hname
    subst hname
    exact .pattern .including (hpattern _ h)
  split at h
  · rename_i hname
    subst hname
    exact .pattern .excluding (hpattern _ h)
  · cases h
    cases hchange

/-- A long option without a value is a setting when it only changes the settings. -/
theorem isSetting_of_ofLongName {d : Directive} (hchange : d.IsChange)
    (h : Directive.ofLongName line = ([d], .options)) : IsSetting line := by
  rw [Directive.ofLongName] at h
  split at h
  · cases h
  split at h
  · cases h
  split at h
  · rename_i entry hfind
    obtain rfl : entry.2 = d := by simpa using h
    obtain rfl : Bytes.ascii entry.1 = line := by simpa using List.find?_some hfind
    have hmem := List.mem_of_find?_eq_some hfind
    obtain ⟨name, d⟩ := entry
    -- the table holds no other changes than flags
    have hflags : ∀ entry ∈ Directive.plainLong,
        (match entry.2 with | .keep _ => false | .pattern _ _ => false | _ => true) = true := by decide
    cases hchange with
    | set flag => exact .set hmem
    | keep chars => exact Bool.noConfusion (hflags _ hmem)
    | pattern role value => exact Bool.noConfusion (hflags _ hmem)
  · cases h
    cases hchange

/-- The settings are the lines that ask for one change of the settings and await nothing behind them. -/
theorem isSetting_iff : IsSetting line ↔
    ∃ d : Directive, d.IsChange ∧ Directive.ofArgument (dashed line) = ([d], .options) := by
  refine ⟨IsSetting.exists_directive, ?_⟩
  rintro ⟨d, hchange, h⟩
  cases line with
  | nil => cases h
  | cons b rest =>
    have hlong : Directive.ofLong (b :: rest) = ([d], .options) := h
    cases hvalue : (b :: rest).dropWhile (· != 0x3D) with
    | nil =>
      rw [Directive.ofLong, hvalue] at hlong
      exact isSetting_of_ofLongName hchange hlong
    | cons c value =>
      obtain ⟨option, hline, -, heq⟩ := ofLong_of_dropWhile hvalue
      rw [hline]
      exact isSetting_of_ofLongValue hchange (heq.symm.trans hlong)

theorem untilNul_dashed (h : (0 : UInt8) ∉ line) : Bytes.untilNul (dashed line) = dashed line :=
  Bytes.untilNul_eq_self (by simpa [dashed] using h)

theorem directives_eq (h : (0 : UInt8) ∉ line) {d : Directive}
    (hd : Directive.ofArgument (dashed line) = ([d], .options)) : directives line = [d] := by
  have hline : Bytes.untilNul (0x2D :: 0x2D :: line) = dashed line := untilNul_dashed h
  rw [directives, Directive.ofArguments, List.map_singleton, hline, Directive.ofArgumentsFrom_cons,
    Expecting.directives, Expecting.next, hd]
  rfl

/-- Settings as arguments ask for what they ask for as lines. -/
theorem ofArgumentsFrom_settings (h : ∀ line ∈ lines, IsSetting line ∧ (0 : UInt8) ∉ line) (rest : List Bytes) :
    Directive.ofArgumentsFrom .options ((lines.map dashed).map Bytes.untilNul ++ rest) =
      lines.flatMap directives ++ Directive.ofArgumentsFrom .options rest := by
  induction lines with
  | nil => rfl
  | cons line lines ih =>
    rw [List.forall_mem_cons] at h
    obtain ⟨d, -, hd⟩ := h.1.1.exists_directive
    rw [List.map_cons, List.map_cons, List.cons_append, untilNul_dashed h.1.2, Directive.ofArgumentsFrom_cons,
      Expecting.directives, Expecting.next, hd, ih h.2, List.flatMap_cons, directives_eq h.1.2 hd,
      List.append_assoc]

theorem isChange_of_settings (h : ∀ line ∈ lines, IsSetting line ∧ (0 : UInt8) ∉ line) :
    ∀ d ∈ lines.flatMap directives, d.IsChange := by
  intro d hd
  obtain ⟨line, hline, hmem⟩ := List.mem_flatMap.mp hd
  obtain ⟨hsetting, hnul⟩ := h line hline
  obtain ⟨d', hchange, hd'⟩ := hsetting.exists_directive
  rw [directives_eq hnul hd', List.mem_singleton] at hmem
  rwa [hmem]

section Lines

variable {env : Environment} {within : Bytes → Session → Except Outcome Session} {number : Nat} {rest : List Bytes}
  {s : Session}

theorem optionLines_cons_of_blank (h : ¬ holdsOption (trim line) = true) :
    optionLines (line :: rest) = optionLines rest :=
  List.filter_cons_of_neg h

theorem optionLines_cons (h : holdsOption (trim line) = true) :
    optionLines (line :: rest) = trim line :: optionLines rest :=
  List.filter_cons_of_pos h

theorem performLines_of_blank (h : ¬ holdsOption (trim line) = true) :
    performLines (Session.perform env true within) path number (line :: rest) s =
      performLines (Session.perform env true within) path (number + 1) rest s := by
  rw [performLines]
  exact if_neg h

/-- A line that asks for one change of the settings gives no warning. -/
theorem performLines_of_change (h : holdsOption (trim line) = true) {d : Directive} (hchange : d.IsChange)
    (hd : directives (trim line) = [d]) :
    performLines (Session.perform env true within) path number (line :: rest) s =
      performLines (Session.perform env true within) path (number + 1) rest
        { s with settings := d.apply s.settings } := by
  have hchanges : ∀ d ∈ directives (trim line), d.IsChange := by
    rw [hd]
    exact List.forall_mem_singleton.mpr hchange
  rw [performLines]
  dsimp only
  rw [if_pos h, Session.perform_changes hchanges, hd]
  exact if_neg (Nat.lt_irrefl _)

/-- The lines of a file of settings change the settings, and none of them gives a warning. -/
theorem performLines_settings (h : ∀ line ∈ optionLines lines, IsSetting line ∧ (0 : UInt8) ∉ line) :
    performLines (Session.perform env true within) path number lines s = .ok (false,
      { s with settings := applyLines (optionLines lines) s.settings }) := by
  induction lines generalizing number s with
  | nil => rfl
  | cons line rest ih =>
    by_cases hline : holdsOption (trim line) = true
    · rw [optionLines_cons hline] at h ⊢
      rw [List.forall_mem_cons] at h
      obtain ⟨d, hchange, hd⟩ := h.1.1.exists_directive
      have hline' := directives_eq h.1.2 hd
      rw [performLines_of_change hline hchange hline', ih h.2, applyLines, applyLines, List.flatMap_cons, hline']
      rfl
    · rw [optionLines_cons_of_blank hline] at h ⊢
      rw [performLines_of_blank hline, ih h]

end Lines

variable {env : Environment} {name contents : Bytes} {s : Session}

/-- A readable file that was not read before is recorded, and then its lines are carried out. -/
theorem loadNested_of_file (hfile : (openOption env name {}).1 = .ok (path, .file contents))
    (hnew : path ∉ s.loaded.map LoadedFile.path) :
    loadNested env maxDepth name s =
      performLines (Session.perform env true (loadNested env 1)) path 1 (Bytes.lines contents)
        { s with loaded := ⟨path, 1⟩ :: s.loaded, consulted := (openOption env name s).2.consulted } >>=
        close path none := by
  obtain ⟨sources, hopen⟩ := openOption_eq env name s
  have hsources : (openOption env name s).2.consulted = sources := by rw [hopen]
  rw [hfile] at hopen
  have hplain : Reader.Plain false contents := fun hdecompress => Bool.noConfusion hdecompress
  have hroom : loadNested env maxDepth name s = load env 1 _ name s :=
    loadNested_of_room Nat.zero_lt_two name s
  rw [hroom, load_of_new hopen hnew, Opened.delivery, Delivery.lines, LineReading.ofBytes_eq hplain, hsources]

/-- A file of settings that was not read before changes the settings as its lines do, and is recorded. -/
theorem exists_loadNested_settings (hfile : (openOption env name {}).1 = .ok (path, .file contents))
    (hnew : path ∉ s.loaded.map LoadedFile.path)
    (h : ∀ line ∈ optionLines (Bytes.lines contents), IsSetting line ∧ (0 : UInt8) ∉ line) :
    ∃ s', loadNested env maxDepth name s = .ok s' ∧ s'.loaded = ⟨path, 1⟩ :: s.loaded ∧
      Ahead path s' { s with settings := applyLines (optionLines (Bytes.lines contents)) s.settings } := by
  let read : Session :=
    { s with
      settings := applyLines (optionLines (Bytes.lines contents)) s.settings
      loaded := ⟨path, 1⟩ :: s.loaded
      consulted := (openOption env name s).2.consulted }
  refine ⟨read, ?_, rfl, ⟨rfl, rfl, rfl⟩, hnew, fun _ => ?_⟩
  · rw [loadNested_of_file hfile hnew, performLines_settings h]
    rfl
  · rw [List.map_cons, List.mem_cons]

end Config

namespace Session

open Config

variable {env : Environment} {before : List Bytes} {name path contents : Bytes} {lines : List Bytes}

theorem afterOptions_config (hbefore : Expecting.after (before.map Bytes.untilNul) = .options)
    (hname : (0 : UInt8) ∉ name) (after : List Bytes) :
    afterOptions env (before ++ dashed (Bytes.ascii "config=" ++ name) :: after) =
      afterOptions env before >>= fun s => loadNested env maxDepth name s >>=
        perform env false (loadNested env maxDepth) (Directive.ofArguments after) := by
  have hnul : (0 : UInt8) ∉ Bytes.ascii "config=" ++ name :=
    List.not_mem_append (by decide) hname
  have hdirectives : Directive.ofArguments (dashed (Bytes.ascii "config=" ++ name) :: after) =
      .config name :: Directive.ofArguments after := by
    rw [Directive.ofArguments, List.map_cons, untilNul_dashed hnul]
    rfl
  rw [afterOptions_append hbefore, hdirectives]
  rfl

/-- Arguments that are read as changes of the settings change them where an option may stand, and nothing else. -/
theorem afterOptions_changes {arguments : List Bytes} {ds : List Directive}
    (hbefore : Expecting.after (before.map Bytes.untilNul) = .options) (hchanges : ∀ d ∈ ds, d.IsChange)
    (hread : ∀ rest, Directive.ofArgumentsFrom .options (arguments.map Bytes.untilNul ++ rest) =
      ds ++ Directive.ofArgumentsFrom .options rest) (after : List Bytes) :
    afterOptions env (before ++ arguments ++ after) =
      afterOptions env before >>= fun s =>
        perform env false (loadNested env maxDepth) (Directive.ofArguments after)
          { s with settings := ds.foldl Directive.apply s.settings } := by
  have hdirectives : Directive.ofArguments (arguments ++ after) = ds ++ Directive.ofArguments after := by
    rw [Directive.ofArguments, List.map_append, hread]
    rfl
  rw [List.append_assoc, afterOptions_append hbefore, hdirectives]
  congr 1
  funext s
  rw [perform_append, perform_changes hchanges]
  rfl

theorem afterOptions_settings (hbefore : Expecting.after (before.map Bytes.untilNul) = .options)
    (h : ∀ line ∈ lines, IsSetting line ∧ (0 : UInt8) ∉ line) (after : List Bytes) :
    afterOptions env (before ++ lines.map dashed ++ after) =
      afterOptions env before >>= fun s =>
        perform env false (loadNested env maxDepth) (Directive.ofArguments after)
          { s with settings := applyLines lines s.settings } :=
  afterOptions_changes hbefore (isChange_of_settings h) (ofArgumentsFrom_settings h) after

/-- Let an option of a command line name a readable configuration file of settings that was not read before. Where
an option may stand, it has the same effect on the session as the options that the file holds, whatever follows,
unless with these options the file is read later on. It gives no warning of its own. -/
theorem config_means_its_lines (hbefore : Expecting.after (before.map Bytes.untilNul) = .options)
    (hname : (0 : UInt8) ∉ name) (hfile : (openOption env name {}).1 = .ok (path, .file contents))
    (hnew : ∀ s, afterOptions env before = .ok s → path ∉ s.loaded.map LoadedFile.path)
    (hlines : ∀ line ∈ optionLines (Bytes.lines contents), IsSetting line ∧ (0 : UInt8) ∉ line)
    (after : List Bytes)
    (honce : path ∉ (filesRead id (afterOptions env
      (before ++ (optionLines (Bytes.lines contents)).map dashed ++ after))).map LoadedFile.path) :
    EndsAlike SameEffect
      (afterOptions env (before ++ dashed (Bytes.ascii "config=" ++ name) :: after))
      (afterOptions env (before ++ (optionLines (Bytes.lines contents)).map dashed ++ after)) ∧
    ∀ s, afterOptions env before = .ok s → ∃ s',
      afterOptions env (before ++ [dashed (Bytes.ascii "config=" ++ name)]) = .ok s' ∧
      s'.warnings = s.warnings ∧ s'.reports = s.reports ∧ s'.loaded = ⟨path, 1⟩ :: s.loaded := by
  constructor
  · rw [afterOptions_settings hbefore hlines] at honce ⊢
    rw [afterOptions_config hbefore hname]
    cases hs : afterOptions env before with
    | error o => exact ⟨rfl, rfl, rfl⟩
    | ok s =>
      obtain ⟨s', hload, -, hahead⟩ := exists_loadNested_settings hfile (hnew s hs) hlines
      have hloads : ∀ name s t, Ahead path s t →
          AlikeUntil path id (Ahead path) (loadNested env maxDepth name s) (loadNested env maxDepth name t) :=
        fun name _ _ => alike_loadNested (Nat.le_refl _) name
      have halike :=
        alike_perform env false hloads (adds_loadNested (Nat.le_refl _)) (Directive.ofArguments after) hahead
      rw [hs] at honce
      show EndsAlike SameEffect (loadNested env maxDepth name s >>= _) _
      rw [hload]
      exact (halike.resolve_left honce).mono fun _ _ h => h.toSameEffect
  · intro s hs
    obtain ⟨s', hload, hloaded, hahead⟩ := exists_loadNested_settings hfile (hnew s hs) hlines
    refine ⟨s', ?_, hahead.warnings, hahead.reports, hloaded⟩
    rw [afterOptions_config hbefore hname, hs]
    show loadNested env maxDepth name s >>= _ = _
    rw [hload]
    rfl

/-- A file with a comment, blanks and an empty line, between options of the command line. -/
theorem config_means_its_lines_between :
    let contents := Bytes.ascii "# names\r\n  include=a b \n\nignore-case\r\n\texclude=test_*"
    let env : Environment :=
      { home := none
        stdin := ⟨[], none⟩
        opened := fun path => if path = Bytes.ascii "f" then .file contents else .refused .missing }
    let before := ["-ve", "z"].map Bytes.ascii
    let after := ["-x", "--config=f", "file"].map Bytes.ascii
    optionLines (Bytes.lines contents) = ["include=a b", "ignore-case", "exclude=test_*"].map Bytes.ascii ∧
      EndsAlike SameEffect (afterOptions env (before ++ Bytes.ascii "--config=f" :: after))
        (afterOptions env
          (before ++ ["--include=a b", "--ignore-case", "--exclude=test_*"].map Bytes.ascii ++ after)) ∧
      ∃ s, afterOptions env (before ++ Bytes.ascii "--config=f" :: after) = .ok s ∧
        s.settings.includes = ["z", "a b"].map Bytes.ascii ∧
        s.settings.excludes = ["test_*", "--config=f"].map Bytes.ascii ∧
        s.loaded = [⟨Bytes.ascii "f", 1⟩] := by
  intro contents env before after
  have hlines : optionLines (Bytes.lines contents) =
      ["include=a b", "ignore-case", "exclude=test_*"].map Bytes.ascii := by
    decide +kernel
  have hsettings : ∀ line ∈ optionLines (Bytes.lines contents), IsSetting line ∧ (0 : UInt8) ∉ line := by
    simp only [hlines, List.map_cons, List.map_nil, List.forall_mem_cons, List.not_mem_nil, false_imp_iff,
      implies_true, and_true]
    have hset : ("ignore-case", Directive.set .ignoreCase) ∈ Directive.plainLong := by decide
    exact ⟨⟨.pattern .including (by decide), by decide⟩, ⟨.set hset, by decide⟩,
      ⟨.pattern .excluding (by decide), by decide⟩⟩
  have hbefore : afterOptions env before = .ok
      { settings := { invertMatch := true, includes := [Bytes.ascii "z"] } } := by
    decide +kernel
  have hnew : ∀ s, afterOptions env before = .ok s → Bytes.ascii "f" ∉ s.loaded.map LoadedFile.path := by
    intro s hs
    obtain rfl := Except.ok.inj (hbefore.symm.trans hs)
    exact List.not_mem_nil
  have hname : (0 : UInt8) ∉ Bytes.ascii "f" := by decide
  have hfile : (openOption env (Bytes.ascii "f") {}).1 = .ok (Bytes.ascii "f", .file contents) := by decide +kernel
  have hmeans := (config_means_its_lines (by decide +kernel) hname hfile hnew hsettings after
    (by rw [hlines]; decide +kernel)).1
  rw [hlines] at hmeans
  have hs : afterOptions env (before ++ Bytes.ascii "--config=f" :: after) = .ok
      { settings :=
          { ignoreCase := true, invertMatch := true
            includes := ["z", "a b"].map Bytes.ascii
            excludes := ["test_*", "--config=f"].map Bytes.ascii
            operands := [Bytes.ascii "file"] }
        loaded := [⟨Bytes.ascii "f", 1⟩]
        consulted := [.path (Bytes.ascii "f")] } := by
    decide +kernel
  exact ⟨hlines, hmeans, _, hs, rfl, rfl, rfl⟩

/-- With its line on the command line, a file that is named later on is read, and so its pattern is added again. -/
theorem config_differs_when_named_again :
    let f := Bytes.ascii "f"
    let contents := Bytes.ascii "include=a\n"
    let env : Environment :=
      { home := none
        stdin := ⟨[], none⟩
        opened := fun path => if path = f then .file contents else .refused .missing }
    let again := [dashed (Bytes.ascii "config=" ++ f)]
    (openOption env f {}).1 = .ok (f, .file contents) ∧ afterOptions env [] = .ok {} ∧
      optionLines (Bytes.lines contents) = [Bytes.ascii "include=a"] ∧ IsSetting (Bytes.ascii "include=a") ∧
      (∃ s, afterOptions env ([] ++ dashed (Bytes.ascii "config=" ++ f) :: again) = .ok s ∧
        s.settings.includes = [Bytes.ascii "a"]) ∧
      ∃ s, afterOptions env ([] ++ (optionLines (Bytes.lines contents)).map dashed ++ again) = .ok s ∧
        s.settings.includes = [Bytes.ascii "a", Bytes.ascii "a"] := by
  intro f contents env again
  have hfile : afterOptions env ([] ++ dashed (Bytes.ascii "config=" ++ f) :: again) = .ok
      { settings := { includes := [Bytes.ascii "a"] }
        loaded := [⟨f, 1⟩]
        consulted := [.path f, .path f] } := by
    decide +kernel
  have hlines : afterOptions env ([] ++ (optionLines (Bytes.lines contents)).map dashed ++ again) = .ok
      { settings := { includes := [Bytes.ascii "a", Bytes.ascii "a"] }
        loaded := [⟨f, 1⟩]
        consulted := [.path f] } := by
    decide +kernel
  exact ⟨by decide +kernel, rfl, by decide +kernel, .pattern .including (by decide), ⟨_, hfile, rfl⟩, _, hlines, rfl⟩

end Session

end NameGlob.Tool
