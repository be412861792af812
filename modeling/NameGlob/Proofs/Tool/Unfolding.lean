import NameGlob.Proofs.Tool.Effects
import NameGlob.Proofs.Tool.Grammar
import NameGlob.Proofs.Tool.Selection

/-!
# Command lines with their configuration files unfolded

A valid command line asks for directives, and each that names a configuration file stands for what the lines of that
file ask for. Unfolding replaces it by them, in the files as on the command line, two files deep. A file that was read
before stands for nothing, and so does the default file where there is none. A command line is accepted exactly when
it has an unfolding, and then it leaves the settings that the unfolded directives ask for.
-/

namespace NameGlob.Tool

/-- White space: tabs, line ends of all kinds, and blanks. -/
def whiteSpace : Bytes := [0x09, 0x0A, 0x0B, 0x0C, 0x0D, 0x20]

/-- `text` is what stands between the white space at both ends of a line. -/
structure Trims (line text : Bytes) : Prop where
  between : ∃ front back, line = front ++ (text ++ back) ∧ (∀ b ∈ front, b ∈ whiteSpace) ∧ ∀ b ∈ back, b ∈ whiteSpace
  head : ∀ b ∈ text.head?, b ∉ whiteSpace
  last : ∀ b ∈ text.getLast?, b ∉ whiteSpace

/-- The lines of a configuration file ask for these directives. Behind two dashes, a line is a command line of its
own, which ends before its first NUL byte; but empty lines and comments ask for nothing. -/
inductive FileAsks : List Bytes → List Directive → Prop
  | nil : FileAsks [] []
  | blank {line text : Bytes} {rest : List Bytes} {ds : List Directive} (htext : Trims line text)
      (h : text = [] ∨ text.head? = some 0x23) (hrest : FileAsks rest ds) : FileAsks (line :: rest) ds
  | option {line text : Bytes} {rest : List Bytes} {ds es : List Directive} (htext : Trims line text)
      (h : text ≠ [] ∧ text.head? ≠ some 0x23) (hasks : Asks [(0x2D :: 0x2D :: text).takeWhile (· != 0)] ds)
      (hrest : FileAsks rest es) : FileAsks (line :: rest) (ds ++ es)

/-- What the path leads to can be opened. -/
def Opens (env : Environment) (path : Bytes) : Prop :=
  ∀ e, env.opened path ≠ .refused e

/-- A configuration file is found under a path: under its name, or else in the home directory, unless its name begins
with `~` or `/`. -/
inductive Located (env : Environment) (name : Bytes) : Bytes → Prop
  | here (h : Opens env name) : Located env name name
  | home {directory : Bytes} (hhere : ¬ Opens env name) (hhome : env.home = some directory)
      (hname : name.head? ≠ some 0x7E ∧ name.head? ≠ some 0x2F) (h : Opens env (directory ++ 0x2F :: name)) :
      Located env name (directory ++ 0x2F :: name)

/-- The name of the configuration file that an option asks for, which may leave it out. -/
def fileOf (name : Bytes) : Bytes :=
  if name = [] then Bytes.ascii ".wcmatch" else name

/-- `Unfolds env room read ds asked read'` : while `room` more configuration files may be opened and those of `read`
have been read, directives `ds` stand for the directives `asked`, which read no file, and then those of `read'` have
been read. -/
inductive Unfolds (env : Environment) :
    Nat → List Bytes → List Directive → List Directive → List Bytes → Prop
  | nil (room : Nat) (read : List Bytes) : Unfolds env room read [] [] read
  | own {room : Nat} {read read' : List Bytes} {d : Directive} {ds asked : List Directive} (h : d.IsOwn)
      (hrest : Unfolds env room read ds asked read') : Unfolds env room read (d :: ds) (d :: asked) read'
  | absent {room : Nat} {read read' : List Bytes} {ds asked : List Directive}
      (h : ∀ path, ¬ Located env (fileOf []) path) (hrest : Unfolds env (room + 1) read ds asked read') :
      Unfolds env (room + 1) read (.config [] :: ds) asked read'
  | again {room : Nat} {read read' : List Bytes} {name path : Bytes} {ds asked : List Directive}
      (hpath : Located env (fileOf name) path) (h : path ∈ read)
      (hrest : Unfolds env (room + 1) read ds asked read') :
      Unfolds env (room + 1) read (.config name :: ds) asked read'
  | file {room : Nat} {read read' read'' : List Bytes} {name path contents : Bytes}
      {ds es asked asked' : List Directive} (hpath : Located env (fileOf name) path) (h : path ∉ read)
      (hfile : env.opened path = .file contents) (hlines : FileAsks (Bytes.lines contents) es)
      (hwithin : Unfolds env room (path :: read) es asked read')
      (hrest : Unfolds env (room + 1) read' ds asked' read'') :
      Unfolds env (room + 1) read (.config name :: ds) (asked ++ asked') read''

/-- The command line is valid and asks for these directives, with its configuration files unfolded. An argument ends
before its first NUL byte. -/
def Requests (env : Environment) (arguments : List Bytes) (asked : List Directive) : Prop :=
  ∃ ds read, Asks (arguments.map (List.takeWhile (· != 0))) ds ∧ Unfolds env 2 [] ds asked read

section Lines

variable {line text : Bytes} {lines : List Bytes} {ds : List Directive}

theorem isBlank_eq_true_iff (b : UInt8) : Config.isBlank b = true ↔ b ∈ whiteSpace := by
  simp only [Config.isBlank, whiteSpace, Bool.or_eq_true, beq_iff_eq, Bool.and_eq_true, decide_eq_true_eq,
    List.mem_cons, List.not_mem_nil, or_false, ← UInt8.toNat_inj]
  simp only [UInt8.reduceToNat]
  omega

theorem dropWhile_eq_self_of_head {p : UInt8 → Bool} {l : Bytes} (h : ∀ b ∈ l.head?, ¬ p b = true) :
    l.dropWhile p = l := by
  cases l with
  | nil => rfl
  | cons b rest => exact List.dropWhile_cons_of_neg (h b rfl)

theorem trim_of_trims (h : Trims line text) : Config.trim line = text := by
  obtain ⟨⟨front, back, rfl, hfront, hback⟩, hhead, hlast⟩ := h
  simp only [← isBlank_eq_true_iff] at hfront hback hhead hlast
  rw [Config.trim, List.dropWhile_append_of_pos hfront]
  by_cases hnil : text = []
  · rw [hnil, List.nil_append, List.dropWhile_eq_nil_iff.mpr hback]
    rfl
  · have hfirst : ∀ b ∈ (text ++ back).head?, ¬ Config.isBlank b = true := by
      rwa [List.head?_append_of_ne_nil _ hnil]
    have hback' : ∀ b ∈ back.reverse, Config.isBlank b = true := by simpa using hback
    rw [dropWhile_eq_self_of_head hfirst, List.reverse_append, List.dropWhile_append_of_pos hback',
      dropWhile_eq_self_of_head (by simpa using hlast), List.reverse_reverse]

theorem trims_trim (line : Bytes) : Trims line (Config.trim line) := by
  let body := line.dropWhile Config.isBlank
  let back := (body.reverse.takeWhile Config.isBlank).reverse
  have hbody : Config.trim line ++ back = body := by
    show (body.reverse.dropWhile Config.isBlank).reverse ++ _ = _
    rw [← List.reverse_append, List.takeWhile_append_dropWhile, List.reverse_reverse]
  have hback : ∀ b ∈ back, b ∈ whiteSpace := by
    intro b hb
    exact (isBlank_eq_true_iff b).mp (List.all_eq_true.mp List.all_takeWhile b (List.mem_reverse.mp hb))
  refine ⟨⟨line.takeWhile Config.isBlank, back, ?_, ?_, hback⟩, fun b hb => ?_, fun b hb => ?_⟩
  · rw [hbody, List.takeWhile_append_dropWhile]
  · intro b hb
    exact (isBlank_eq_true_iff b).mp (List.all_eq_true.mp List.all_takeWhile b hb)
  · have hhead : body.head? = some b := by
      rw [← hbody, List.head?_append, Option.mem_def.mp hb]
      rfl
    have hnot := List.head?_dropWhile_not Config.isBlank line
    rw [← isBlank_eq_true_iff]
    simpa [body, hhead] using hnot
  · have hlast : (body.reverse.dropWhile Config.isBlank).head? = some b := by
      rw [← List.getLast?_reverse]
      exact hb
    have hnot := List.head?_dropWhile_not Config.isBlank body.reverse
    rw [← isBlank_eq_true_iff]
    simpa [hlast] using hnot

/-- A line is trimmed in one way. -/
theorem trims_iff : Trims line text ↔ Config.trim line = text := by
  refine ⟨trim_of_trims, ?_⟩
  rintro rfl
  exact trims_trim line

theorem holdsOption_iff : Config.holdsOption text = true ↔ text ≠ [] ∧ text.head? ≠ some 0x23 := by
  simp [Config.holdsOption]

theorem not_holdsOption_iff : ¬ Config.holdsOption text = true ↔ text = [] ∨ text.head? = some 0x23 := by
  rw [holdsOption_iff]
  tauto

/-- What the lines of a configuration file are read as. -/
def readLines (lines : List Bytes) : List Directive :=
  (Config.optionLines lines).flatMap Config.directives

theorem readLines_cons_of_blank (h : ¬ Config.holdsOption (Config.trim line) = true) (rest : List Bytes) :
    readLines (line :: rest) = readLines rest := by
  rw [readLines, Config.optionLines_cons_of_blank h]
  rfl

theorem readLines_cons (h : Config.holdsOption (Config.trim line) = true) (rest : List Bytes) :
    readLines (line :: rest) = Config.directives (Config.trim line) ++ readLines rest := by
  rw [readLines, Config.optionLines_cons h, List.flatMap_cons]
  rfl

theorem asks_line_iff : Asks [Bytes.untilNul (0x2D :: 0x2D :: text)] ds ↔
    Config.directives text = ds ∧ ∀ d ∈ ds, d.IsProper :=
  asks_iff

/-- The lines of a file ask for what they are read as, when that is proper. -/
theorem fileAsks_iff : FileAsks lines ds ↔ readLines lines = ds ∧ ∀ d ∈ ds, d.IsProper := by
  constructor
  · intro h
    induction h with
    | nil => exact ⟨rfl, List.forall_mem_nil _⟩
    | blank htext h _ ih =>
      rw [← trims_iff.mp htext, ← not_holdsOption_iff] at h
      rwa [readLines_cons_of_blank h]
    | option htext h hasks _ ih =>
      rw [← trims_iff.mp htext, ← holdsOption_iff] at h
      rw [← trims_iff.mp htext] at hasks
      obtain ⟨hline, hproper⟩ := asks_line_iff.mp hasks
      exact ⟨by rw [readLines_cons h, hline, ih.1], List.forall_mem_append.mpr ⟨hproper, ih.2⟩⟩
  · rintro ⟨rfl, h⟩
    induction lines with
    | nil => exact .nil
    | cons line rest ih =>
      by_cases hline : Config.holdsOption (Config.trim line) = true
      · rw [readLines_cons hline, List.forall_mem_append] at h
        rw [readLines_cons hline]
        exact .option (trims_trim line) (holdsOption_iff.mp hline) (asks_line_iff.mpr ⟨rfl, h.1⟩) (ih h.2)
      · rw [readLines_cons_of_blank hline] at h ⊢
        exact .blank (trims_trim line) (not_holdsOption_iff.mp hline) (ih h)

end Lines

section Files

variable {env : Environment} {name path path' : Bytes}

theorem exists_refused_of_not_opens (h : ¬ Opens env path) : ∃ e, env.opened path = .refused e := by
  simpa [Opens] using h

theorem Located.opens (h : Located env name path) : Opens env path := by
  cases h with
  | here h => exact h
  | home _ _ _ h => exact h

theorem Located.unique (h : Located env name path) (h' : Located env name path') : path = path' := by
  cases h with
  | here h =>
    cases h' with
    | here => rfl
    | home hhere => exact absurd h hhere
  | home hhere hhome =>
    cases h' with
    | here h' => exact absurd h' hhere
    | home _ hhome' =>
      obtain rfl := Option.some.inj (hhome.symm.trans hhome')
      rfl

/-- What is not found under its name may be found in the home directory. -/
theorem located_iff_inHome (hhere : ¬ Opens env name) :
    Located env name path ↔ Config.inHome? env.home name = some path ∧ Opens env path := by
  constructor
  · rintro (h | ⟨-, hhome, hname, h⟩)
    · exact absurd h hhere
    · exact ⟨by simp [Config.inHome?, hname, hhome], h⟩
  · rintro ⟨hpath, h⟩
    simp only [Config.inHome?, Option.ite_none_left_eq_some, Option.map_eq_some_iff] at hpath
    obtain ⟨hname, directory, hhome, rfl⟩ := hpath
    exact .home hhere hhome (not_or.mp hname) h

theorem openNamed_of_opens (h : Opens env name) (s : Session) :
    Config.openNamed env name s = (.ok (name, env.opened name), s.consult name) := by
  cases hopened : env.opened name with
  | refused e => exact absurd hopened (h e)
  | file | directory => simp [Config.openNamed, hopened]

theorem openNamed_of_inHome {e : OpenError} (he : env.opened name = .refused e)
    (hhome : Config.inHome? env.home name = some path) (h : Opens env path) (s : Session) :
    Config.openNamed env name s = (.ok (path, env.opened path), (s.consult name).consult path) := by
  cases hopened : env.opened path with
  | refused e => exact absurd hopened (h e)
  | file | directory => simp [Config.openNamed, he, hhome, hopened]

/-- A file that is located is opened, and no other. -/
theorem openNamed_cases (env : Environment) (name : Bytes) (s : Session) :
    (∃ path sources, Located env name path ∧
      Config.openNamed env name s = (.ok (path, env.opened path), { s with consulted := sources })) ∨
    ∃ e sources, (∀ path, ¬ Located env name path) ∧
      Config.openNamed env name s = (.error e, { s with consulted := sources }) := by
  by_cases hhere : Opens env name
  · exact .inl ⟨name, _, .here hhere, openNamed_of_opens hhere s⟩
  obtain ⟨e, he⟩ := exists_refused_of_not_opens hhere
  cases hhome : Config.inHome? env.home name with
  | none =>
    refine .inr ⟨e, (s.consult name).consulted, fun path hpath => ?_, ?_⟩
    · simp [located_iff_inHome hhere, hhome] at hpath
    · simp [Config.openNamed, he, hhome, Session.consult]
  | some path =>
    by_cases h : Opens env path
    · exact .inl ⟨path, _, (located_iff_inHome hhere).mpr ⟨hhome, h⟩, openNamed_of_inHome he hhome h s⟩
    · obtain ⟨e', he'⟩ := exists_refused_of_not_opens h
      refine .inr ⟨e', ((s.consult name).consult path).consulted, fun other hother => ?_, ?_⟩
      · obtain ⟨hsame, hopens⟩ := (located_iff_inHome hhere).mp hother
        obtain rfl := Option.some.inj (hhome.symm.trans hsame)
        exact h hopens
      · simp [Config.openNamed, he, hhome, he', Session.consult]

end Files

section Warnings

variable {env : Environment} {within loadConfig : Bytes → Session → Except Outcome Session} {inConfig : Bool}
  {s s' : Session} {ds : List Directive}

theorem Session.le_warnings_performOne {d : Directive}
    (hload : ∀ name s s', loadConfig name s = .ok s' → s.warnings ≤ s'.warnings)
    (h : performOne env inConfig loadConfig s d = .ok s') : s.warnings ≤ s'.warnings := by
  cases d with
  | config name => exact hload name s s' h
  | help => simp [performOne] at h
  | version => simp [performOne] at h
  | misuse e =>
    cases inConfig with
    | false => simp [performOne, misuse] at h
    | true =>
      obtain rfl := Except.ok.inj h
      exact Nat.le_succ _
  | set | keep | pattern | operand =>
    obtain rfl := Except.ok.inj h
    exact Nat.le_refl _

theorem Session.le_warnings_perform (hload : ∀ name s s', loadConfig name s = .ok s' → s.warnings ≤ s'.warnings)
    (h : perform env inConfig loadConfig ds s = .ok s') : s.warnings ≤ s'.warnings := by
  induction ds generalizing s with
  | nil => exact Nat.le_of_eq (congrArg Session.warnings (Except.ok.inj h))
  | cons d rest ih =>
    rw [perform_cons] at h
    obtain ⟨after, hfirst, hrest⟩ := exists_ok_of_bind h
    exact Nat.le_trans (le_warnings_performOne hload hfirst) (ih hrest)

/-- The lines of a file give no warning when they are carried out as one list of directives without one. -/
theorem Config.performLines_eq_ok_iff (hload : ∀ name s s', within name s = .ok s' → s.warnings ≤ s'.warnings)
    {number : Nat} {lines : List Bytes} {path : Bytes} :
    performLines (Session.perform env true within) path number lines s = .ok (false, s') ↔
      Session.perform env true within (readLines lines) s = .ok s' ∧ s'.warnings ≤ s.warnings := by
  induction lines generalizing number s with
  | nil =>
    constructor
    · intro h
      obtain ⟨-, rfl⟩ := Prod.mk.inj (Except.ok.inj h)
      exact ⟨rfl, Nat.le_refl _⟩
    · rintro ⟨h, -⟩
      obtain rfl := Except.ok.inj h
      rfl
  | cons line rest ih =>
    by_cases hline : holdsOption (trim line) = true
    · rw [readLines_cons hline, Session.perform_append, performLines]
      dsimp only
      rw [if_pos hline]
      cases hfirst : Session.perform env true within (directives (trim line)) s with
      | error o =>
        refine iff_of_false (fun h => ?_) fun h => ?_
        · cases h
        · cases h.1
      | ok after =>
        have hafter := Session.le_warnings_perform hload hfirst
        show (if s.warnings < after.warnings then _ else _) = _ ↔
          Session.perform env true within (readLines rest) after = _ ∧ _
        by_cases hwarned : s.warnings < after.warnings
        · rw [if_pos hwarned]
          refine iff_of_false (fun h => ?_) fun h => ?_
          · obtain ⟨last, -, hlast⟩ := exists_ok_of_bind h
            cases hlast
          · have hrest := Session.le_warnings_perform hload h.1
            exact absurd h.2 (Nat.not_le_of_lt (Nat.lt_of_lt_of_le hwarned hrest))
        · have hsame : after.warnings = s.warnings := Nat.le_antisymm (Nat.le_of_not_lt hwarned) hafter
          rw [if_neg hwarned, ih, hsame]
    · rw [performLines_of_blank hline, ih, readLines_cons_of_blank hline]

end Warnings

section Loading

open Config

variable {env : Environment} {room : Nat} {name path : Bytes} {s s' : Session}

theorem bind_close_eq_ok_iff {x : Except Outcome (Bool × Session)} {failure : Option ReadFailure} :
    x >>= close path failure = .ok s' ↔ failure = none ∧ x = .ok (false, s') := by
  cases x with
  | error o =>
    refine iff_of_false (fun h => ?_) fun h => ?_
    · cases h
    · cases h.2
  | ok r =>
    obtain ⟨faulty, last⟩ := r
    show close path failure (faulty, last) = .ok s' ↔ _
    cases failure with
    | some failure =>
      refine iff_of_false (fun h => ?_) fun h => ?_
      · cases h
      · cases h.1
    | none => cases faulty <;> simp [close]

theorem openOption_eq_openNamed (env : Environment) (name : Bytes) (s : Session) :
    openOption env name s = openNamed env (fileOf name) s := by
  rw [openOption, fileOf]
  simp only [List.isEmpty_iff]
  rfl

theorem exists_file_of_opens (h : Opens env path) (hfailure : (env.opened path).delivery.failure = none) :
    ∃ contents : Bytes, env.opened path = .file contents := by
  cases hopened : env.opened path with
  | refused e => exact absurd hopened (h e)
  | directory =>
    rw [hopened] at hfailure
    cases hfailure
  | file delivery =>
    obtain ⟨contents, failure⟩ := delivery
    rw [hopened] at hfailure
    obtain rfl : failure = none := hfailure
    exact ⟨contents, rfl⟩

theorem openOption_of_located (h : Located env (fileOf name) path) (s : Session) :
    ∃ sources, openOption env name s = (.ok (path, env.opened path), { s with consulted := sources }) := by
  rw [openOption_eq_openNamed]
  rcases openNamed_cases env (fileOf name) s with ⟨other, sources, hother, hopen⟩ | ⟨-, -, hnone, -⟩
  · obtain rfl := hother.unique h
    exact ⟨sources, hopen⟩
  · exact absurd h (hnone path)

/-- Only the default file may be missing. -/
theorem loadNested_of_absent (room : Nat) (h : ∀ path, ¬ Located env (fileOf name) path) (s : Session) :
    ∃ sources, ∀ s', loadNested env (room + 1) name s = .ok s' ↔ name = [] ∧ { s with consulted := sources } = s' := by
  rcases openNamed_cases env (fileOf name) s with ⟨path, -, hpath, -⟩ | ⟨e, sources, -, hopen⟩
  · exact absurd hpath (h path)
  · rw [← openOption_eq_openNamed] at hopen
    refine ⟨sources, fun s' => ?_⟩
    rw [loadNested, load_of_refused hopen]
    cases name with
    | nil => simp
    | cons b rest => simp

theorem loadNested_of_read (room : Nat) (h : Located env (fileOf name) path)
    (hread : path ∈ s.loaded.map LoadedFile.path) :
    ∃ sources, loadNested env (room + 1) name s = .ok { s with consulted := sources } := by
  obtain ⟨sources, hopen⟩ := openOption_of_located h s
  exact ⟨sources, by rw [loadNested, load_of_read hopen hread]⟩

/-- A new file is carried out without a warning when it can be read to its end and its lines give none. -/
theorem loadNested_of_new (hload : ∀ name s s', loadNested env room name s = .ok s' → s.warnings ≤ s'.warnings)
    (h : Located env (fileOf name) path) (hnew : path ∉ s.loaded.map LoadedFile.path) :
    ∃ sources, ∀ s', loadNested env (room + 1) name s = .ok s' ↔ ∃ contents : Bytes,
      env.opened path = .file contents ∧
      Session.perform env true (loadNested env room) (readLines (Bytes.lines contents))
        { s with loaded := ⟨path, maxDepth - room⟩ :: s.loaded, consulted := sources } = .ok s' ∧
      s'.warnings ≤ s.warnings := by
  obtain ⟨sources, hopen⟩ := openOption_of_located h s
  have hplain : Reader.Plain false (env.opened path).delivery.bytes := fun hdecompress => Bool.noConfusion hdecompress
  refine ⟨sources, fun s' => ?_⟩
  rw [loadNested, load_of_new hopen hnew, bind_close_eq_ok_iff, Delivery.lines_eq hplain,
    performLines_eq_ok_iff hload]
  constructor
  · rintro ⟨hfailure, hperform⟩
    obtain ⟨contents, hfile⟩ := exists_file_of_opens h.opens hfailure
    rw [hfile] at hperform
    exact ⟨contents, hfile, hperform⟩
  · rintro ⟨contents, hfile, hperform⟩
    rw [hfile]
    exact ⟨rfl, hperform⟩

/-- An option for a configuration file takes back no warning. -/
theorem le_warnings_loadNested (room : Nat) (name : Bytes) (s s' : Session)
    (h : loadNested env room name s = .ok s') : s.warnings ≤ s'.warnings := by
  induction room generalizing name s s' with
  | zero =>
    obtain rfl := Except.ok.inj h
    exact Nat.le_succ _
  | succ room ih =>
    by_cases hlocated : ∃ path, Located env (fileOf name) path
    · obtain ⟨path, hpath⟩ := hlocated
      by_cases hread : path ∈ s.loaded.map LoadedFile.path
      · obtain ⟨sources, hsame⟩ := loadNested_of_read room hpath hread
        obtain rfl := Except.ok.inj (hsame.symm.trans h)
        exact Nat.le_refl _
      · obtain ⟨sources, hiff⟩ := loadNested_of_new ih hpath hread
        obtain ⟨contents, -, hperform, -⟩ := (hiff s').mp h
        exact (Session.le_warnings_perform ih hperform :)
    · obtain ⟨sources, hiff⟩ := loadNested_of_absent room (not_exists.mp hlocated) s
      obtain ⟨-, rfl⟩ := (hiff s').mp h
      exact Nat.le_refl _

end Loading

section Unfolding

open Config

variable {env : Environment} {room : Nat} {read read' : List Bytes} {ds asked : List Directive} {s s' : Session}

/-- The paths of the configuration files that were read, the latest first. -/
def Session.pathsRead (s : Session) : List Bytes :=
  s.loaded.map LoadedFile.path

theorem Session.perform_config {name : Bytes} {middle : Session} (h : loadNested env room name s = .ok middle)
    (inConfig : Bool) (ds : List Directive) :
    perform env inConfig (loadNested env room) (.config name :: ds) s =
      perform env inConfig (loadNested env room) ds middle := by
  rw [perform_cons]
  show loadNested env room name s >>= _ = _
  rw [h]
  rfl

/-- Directives that unfold are carried out without a warning, and do what they stand for. -/
theorem Unfolds.exists_perform (h : Unfolds env room read ds asked read') (inConfig : Bool)
    (hread : s.pathsRead = read) :
    ∃ s', Session.perform env inConfig (loadNested env room) ds s = .ok s' ∧ s'.pathsRead = read' ∧
      s'.warnings = s.warnings ∧ Settings.Extends s.settings asked s'.settings := by
  induction h generalizing inConfig s with
  | nil room read => exact ⟨s, rfl, hread, rfl, .refl s.settings⟩
  | @own room read read' d ds asked h _ ih =>
    obtain ⟨settings, hfirst, hextends⟩ := Session.exists_performOne_of_isOwn h env inConfig (loadNested env room) s
    obtain ⟨s', hrest, hpaths, hwarnings, hextends'⟩ := ih (s := { s with settings := settings }) inConfig hread
    refine ⟨s', ?_, hpaths, hwarnings, hextends.trans hextends'⟩
    rw [Session.perform_cons, hfirst]
    exact hrest
  | @absent room read read' ds asked h _ ih =>
    obtain ⟨sources, hiff⟩ := loadNested_of_absent room h s
    rw [Session.perform_config ((hiff _).mpr ⟨rfl, rfl⟩)]
    exact ih inConfig hread
  | @again room read read' name path ds asked hpath h _ ih =>
    obtain ⟨sources, hfirst⟩ := loadNested_of_read room hpath (hread ▸ h)
    rw [Session.perform_config hfirst]
    exact ih inConfig hread
  | @file room read read' read'' name path contents ds es asked asked' hpath h hfile hlines _ _ ihwithin ih =>
    have hnew : path ∉ s.pathsRead := by rwa [hread]
    obtain ⟨sources, hiff⟩ := loadNested_of_new (le_warnings_loadNested room) hpath hnew
    let opened : Session := { s with loaded := ⟨path, maxDepth - room⟩ :: s.loaded, consulted := sources }
    obtain ⟨middle, hwithin, hpaths, hwarnings, hextends⟩ :=
      ihwithin (s := opened) true (congrArg (path :: ·) hread)
    rw [← (fileAsks_iff.mp hlines).1] at hwithin
    have hfirst := (hiff middle).mpr ⟨contents, hfile, hwithin, Nat.le_of_eq hwarnings⟩
    obtain ⟨s', hrest, hpaths', hwarnings', hextends'⟩ := ih inConfig hpaths
    refine ⟨s', ?_, hpaths', hwarnings'.trans hwarnings, hextends.trans hextends'⟩
    rw [Session.perform_config hfirst]
    exact hrest

theorem Unfolds.isProper (h : Unfolds env room read ds asked read') : ∀ d ∈ ds, d.IsProper := by
  induction h with
  | nil => exact List.forall_mem_nil _
  | @own _ _ _ d _ _ h _ ih =>
    refine List.forall_mem_cons.mpr ⟨?_, ih⟩
    cases d with
    | help | version | misuse => exact h
    | _ => trivial
  | absent _ _ ih => exact List.forall_mem_cons.mpr ⟨trivial, ih⟩
  | again _ _ _ ih => exact List.forall_mem_cons.mpr ⟨trivial, ih⟩
  | file _ _ _ _ _ _ _ ih => exact List.forall_mem_cons.mpr ⟨trivial, ih⟩

/-- An option for a configuration file unfolds when it is carried out without a warning, if the directives within files
do. -/
theorem exists_unfolds_config {name : Bytes} {middle : Session}
    (hwithin : ∀ ds s s', Session.perform env true (loadNested env room) ds s = .ok s' → s'.warnings ≤ s.warnings →
      ∃ asked, Unfolds env room s.pathsRead ds asked s'.pathsRead)
    (h : loadNested env (room + 1) name s = .ok middle) (hquiet : middle.warnings ≤ s.warnings) :
    ∃ asked, ∀ ds asked' read', Unfolds env (room + 1) middle.pathsRead ds asked' read' →
      Unfolds env (room + 1) s.pathsRead (.config name :: ds) (asked ++ asked') read' := by
  by_cases hlocated : ∃ path, Located env (fileOf name) path
  · obtain ⟨path, hpath⟩ := hlocated
    by_cases hread : path ∈ s.pathsRead
    · obtain ⟨sources, hsame⟩ := loadNested_of_read room hpath hread
      obtain rfl := Except.ok.inj (hsame.symm.trans h)
      exact ⟨[], fun _ _ _ hrest => .again hpath hread hrest⟩
    · obtain ⟨sources, hiff⟩ := loadNested_of_new (le_warnings_loadNested room) hpath hread
      obtain ⟨contents, hfile, hperform, -⟩ := (hiff middle).mp h
      obtain ⟨asked, hunfolds⟩ := hwithin _ _ _ hperform hquiet
      have hlines := fileAsks_iff.mpr ⟨rfl, hunfolds.isProper⟩
      exact ⟨asked, fun _ _ _ hrest => .file hpath hread hfile hlines hunfolds hrest⟩
  · have hnone := not_exists.mp hlocated
    obtain ⟨sources, hiff⟩ := loadNested_of_absent room hnone s
    obtain ⟨rfl, rfl⟩ := (hiff middle).mp h
    exact ⟨[], fun _ _ _ hrest => .absent hnone hrest⟩

/-- Directives that are carried out without a warning unfold, when those do that name a configuration file. -/
theorem exists_unfolds_of_config {inConfig : Bool}
    (hconfig : ∀ name s middle, loadNested env room name s = .ok middle → middle.warnings ≤ s.warnings →
      ∃ asked, ∀ ds asked' read', Unfolds env room middle.pathsRead ds asked' read' →
        Unfolds env room s.pathsRead (.config name :: ds) (asked ++ asked') read')
    (h : Session.perform env inConfig (loadNested env room) ds s = .ok s') (hquiet : s'.warnings ≤ s.warnings) :
    ∃ asked, Unfolds env room s.pathsRead ds asked s'.pathsRead := by
  induction ds generalizing s with
  | nil =>
    obtain rfl := Except.ok.inj h
    exact ⟨[], .nil _ _⟩
  | cons d ds ih =>
    rw [Session.perform_cons] at h
    obtain ⟨middle, hfirst, hrest⟩ := exists_ok_of_bind h
    have hbefore := Session.le_warnings_performOne (le_warnings_loadNested room) hfirst
    have hbehind := Session.le_warnings_perform (le_warnings_loadNested room) hrest
    obtain ⟨asked', hunfolds⟩ := ih hrest (Nat.le_trans hquiet hbefore)
    cases d with
    | config name =>
      obtain ⟨asked, hconfig⟩ := hconfig name s middle hfirst (Nat.le_trans hbehind hquiet)
      exact ⟨asked ++ asked', hconfig ds asked' _ hunfolds⟩
    | help => simp [Session.performOne] at hfirst
    | version => simp [Session.performOne] at hfirst
    | misuse e =>
      -- a misuse ends the run, or gives a warning
      cases inConfig with
      | false => simp [Session.performOne, Session.misuse] at hfirst
      | true =>
        obtain rfl := Except.ok.inj hfirst
        exact absurd (Nat.le_trans hbehind hquiet) (Nat.not_succ_le_self _)
    | set | keep | pattern | operand =>
      obtain rfl := Except.ok.inj hfirst
      exact ⟨_, .own trivial hunfolds⟩

/-- Directives that are carried out without a warning unfold. -/
theorem exists_unfolds {inConfig : Bool} (h : Session.perform env inConfig (loadNested env room) ds s = .ok s')
    (hquiet : s'.warnings ≤ s.warnings) : ∃ asked, Unfolds env room s.pathsRead ds asked s'.pathsRead := by
  induction room generalizing inConfig ds s s' with
  | zero =>
    refine exists_unfolds_of_config (fun name s middle hrefused hquiet => ?_) h hquiet
    obtain rfl := Except.ok.inj hrefused
    exact absurd hquiet (Nat.not_succ_le_self _)
  | succ room ih =>
    refine exists_unfolds_of_config (fun name s middle hload hquiet => ?_) h hquiet
    exact exists_unfolds_config (fun ds s s' hwithin hquiet => ih hwithin hquiet) hload hquiet

variable {arguments : List Bytes}

/-- A command line that can be unfolded is accepted without a warning, and leaves the settings that it asks for. -/
theorem Requests.exists_afterOptions (h : Requests env arguments asked) :
    ∃ s, Session.afterOptions env arguments = .ok s ∧ Settings.Extends {} asked s.settings := by
  obtain ⟨ds, read, hasks, hunfolds⟩ := h
  obtain ⟨s, hperform, -, -, hextends⟩ := hunfolds.exists_perform (s := {}) false rfl
  rw [← ofArgumentsFrom_of_asks hasks] at hperform
  exact ⟨s, hperform, hextends⟩

/-- The command lines that are accepted are those that can be unfolded. -/
theorem exists_afterOptions_iff :
    (∃ s, Session.afterOptions env arguments = .ok s) ↔ ∃ asked, Requests env arguments asked := by
  constructor
  · rintro ⟨s, hs⟩
    have hquiet := Session.warnings_perform (fun _ _ _ hload => Config.warnings_load hload) hs
    obtain ⟨asked, hunfolds⟩ := exists_unfolds hs hquiet
    exact ⟨asked, _, _, asks_iff.mpr ⟨rfl, hunfolds.isProper⟩, hunfolds⟩
  · rintro ⟨asked, h⟩
    obtain ⟨s, hs, -⟩ := h.exists_afterOptions
    exact ⟨s, hs⟩

end Unfolding

end NameGlob.Tool
