import NameGlob.Proofs.Tool.ConfigLines
import NameGlob.Tool.Run

/-!
# Spellings of options

Options can be written in several ways. The letters of flags stand in arguments of their own or together, and a
pattern option may end such a group. Its pattern stands in the next argument, behind an `=`, or right behind the
letter. All spellings are read as the same directives, so a command line means the same with any of them.
-/

namespace NameGlob.Tool

/-- The flags that have a letter. -/
inductive LetterFlag where
  | count
  | cultureInvariant
  | decompress
  | ignoreCase
  | invertMatch
  deriving Repr, DecidableEq

namespace LetterFlag

def letter : LetterFlag → UInt8
  | count => 0x63
  | cultureInvariant => 0x49
  | decompress => 0x7A
  | ignoreCase => 0x69
  | invertMatch => 0x76

def flag : LetterFlag → Flag
  | count => .count
  | cultureInvariant => .cultureInvariant
  | decompress => .decompress
  | ignoreCase => .ignoreCase
  | invertMatch => .invertMatch

end LetterFlag

/-- The letters of some flags behind a `-`, and `ending` behind them. -/
def group (flags : List LetterFlag) (ending : Bytes) : Bytes :=
  0x2D :: (flags.map LetterFlag.letter ++ ending)

/-- Arguments that spell flags: their letters in the same order, cut into groups. -/
inductive SpellsFlags : List LetterFlag → List Bytes → Prop
  | nil : SpellsFlags [] []
  | cons {rest : List LetterFlag} {arguments : List Bytes} (flags : List LetterFlag) (hne : flags ≠ [])
      (hrest : SpellsFlags rest arguments) : SpellsFlags (flags ++ rest) (group flags [] :: arguments)

/-- Arguments that spell flags and behind them the pattern option of `role` with the pattern `p`. -/
inductive SpellsPattern (role : Role) (p : Bytes) : List LetterFlag → List Bytes → Prop
  | detached (flags : List LetterFlag) : SpellsPattern role p flags [group flags [role.letter], p]
  | joined (flags : List LetterFlag) : SpellsPattern role p flags [group flags (role.letter :: 0x3D :: p)]
  | attached (flags : List LetterFlag) (h : p.head? ≠ some 0x3D) :
      SpellsPattern role p flags [group flags (role.letter :: p)]
  | long : SpellsPattern role p [] [Config.dashed role.longName, p]
  | longJoined : SpellsPattern role p [] [Config.dashed (role.longName ++ 0x3D :: p)]
  | behind {flags rest : List LetterFlag} {front arguments : List Bytes} (hfront : SpellsFlags flags front)
      (hrest : SpellsPattern role p rest arguments) : SpellsPattern role p (flags ++ rest) (front ++ arguments)

/-- The settings with flags set one after the other. -/
def Settings.setAll (s : Settings) (flags : List LetterFlag) : Settings :=
  flags.foldl (fun s f => s.set f.flag) s

/-- The directives that set flags. -/
def settingFlags (flags : List LetterFlag) : List Directive :=
  flags.map fun f => .set f.flag

section Reading

variable {flags : List LetterFlag} {arguments rest : List Bytes} {role : Role} {p ending : Bytes}

theorem settingFlags_append (flags more : List LetterFlag) :
    settingFlags (flags ++ more) = settingFlags flags ++ settingFlags more :=
  List.map_append

theorem ofLetters_flags (flags : List LetterFlag) (ending : Bytes) :
    Directive.ofLetters (flags.map LetterFlag.letter ++ ending) =
      (settingFlags flags ++ (Directive.ofLetters ending).1, (Directive.ofLetters ending).2) := by
  induction flags with
  | nil => rfl
  | cons f flags ih =>
    have hplain : isPlainLetter f.letter = true := by cases f <;> decide
    have hletter : Directive.ofLetter f.letter = .set f.flag := by cases f <;> decide
    rw [List.map_cons, List.cons_append, ofLetters_cons_of_plain hplain, ih, hletter]
    rfl

theorem ofArgument_dash {letters : Bytes} (hne : letters ≠ []) :
    Directive.ofArgument (0x2D :: letters) = Directive.ofLetters letters := by
  cases letters with
  | nil => exact absurd rfl hne
  | cons b rest => rfl

/-- A group that holds flags or more is read as the flags and what stands behind them. -/
theorem ofArgument_group (h : flags ≠ [] ∨ ending ≠ []) :
    Directive.ofArgument (group flags ending) =
      (settingFlags flags ++ (Directive.ofLetters ending).1, (Directive.ofLetters ending).2) := by
  have hne : flags.map LetterFlag.letter ++ ending ≠ [] := by simpa [or_iff_not_imp_left] using h
  rw [group, ofArgument_dash hne, ofLetters_flags]

theorem ofArgument_group_role (flags : List LetterFlag) (role : Role) (rest : Bytes) :
    Directive.ofArgument (group flags (role.letter :: rest)) =
      (settingFlags flags ++ (Directive.ofPatternValue role (Directive.attached rest)).1,
        (Directive.ofPatternValue role (Directive.attached rest)).2) := by
  rw [ofArgument_group (.inr (List.cons_ne_nil _ _)), ofLetters_cons_role]

theorem ofPatternValue_of_ne_nil (role : Role) (hp : p ≠ []) :
    Directive.ofPatternValue role p = ([.pattern role p], .options) := by
  cases p with
  | nil => exact absurd rfl hp
  | cons b rest => rfl

theorem attached_of_head (h : p.head? ≠ some 0x3D) : Directive.attached p = p := by
  cases p with
  | nil => rfl
  | cons b rest => exact if_neg fun hb => h (congrArg some hb)

theorem ofArgument_longName (role : Role) :
    Directive.ofArgument (Config.dashed role.longName) = ([], .value role) := by
  cases role <;> decide

theorem ofArgument_longValue (role : Role) (value : Bytes) :
    Directive.ofArgument (Config.dashed (role.longName ++ 0x3D :: value)) =
      Directive.ofPatternValue role value := by
  cases role <;> rfl

theorem zero_not_mem_group (h : (0 : UInt8) ∉ ending) : (0 : UInt8) ∉ group flags ending := by
  have hletters : ∀ f : LetterFlag, f.letter ≠ 0 := by
    intro f
    cases f <;> decide
  simp [group, h, hletters]

theorem SpellsFlags.map_untilNul (h : SpellsFlags flags arguments) : arguments.map Bytes.untilNul = arguments := by
  induction h with
  | nil => rfl
  | cons flags hne _ ih => rw [List.map_cons, ih, Bytes.untilNul_eq_self (zero_not_mem_group List.not_mem_nil)]

theorem SpellsPattern.map_untilNul (hnul : (0 : UInt8) ∉ p) (h : SpellsPattern role p flags arguments) :
    arguments.map Bytes.untilNul = arguments := by
  have hletter : (0 : UInt8) ≠ role.letter := by cases role <;> decide
  have hname : (0 : UInt8) ∉ Config.dashed role.longName := by cases role <;> decide
  induction h with
  | detached flags =>
    have hgroup : (0 : UInt8) ∉ group flags [role.letter] := zero_not_mem_group (by simpa using hletter)
    simp [Bytes.untilNul_eq_self hgroup, Bytes.untilNul_eq_self hnul]
  | joined flags =>
    have hgroup : (0 : UInt8) ∉ group flags (role.letter :: 0x3D :: p) :=
      zero_not_mem_group (by simp [hletter, hnul])
    simp [Bytes.untilNul_eq_self hgroup]
  | attached flags =>
    have hgroup : (0 : UInt8) ∉ group flags (role.letter :: p) := zero_not_mem_group (by simp [hletter, hnul])
    simp [Bytes.untilNul_eq_self hgroup]
  | long => simp [Bytes.untilNul_eq_self hname, Bytes.untilNul_eq_self hnul]
  | longJoined =>
    have hjoined : (0 : UInt8) ∉ Config.dashed (role.longName ++ 0x3D :: p) :=
      List.not_mem_append hname (by simp [hnul])
    simp [Bytes.untilNul_eq_self hjoined]
  | behind hfront _ ih => rw [List.map_append, hfront.map_untilNul, ih]

theorem ofArgumentsFrom_of_ofArgument {argument : Bytes} {ds : List Directive} {expecting : Expecting}
    (h : Directive.ofArgument argument = (ds, expecting)) (rest : List Bytes) :
    Directive.ofArgumentsFrom .options (argument :: rest) = ds ++ Directive.ofArgumentsFrom expecting rest := by
  rw [Directive.ofArgumentsFrom_cons, Expecting.directives, Expecting.next, h]

/-- Flags are read as themselves, wherever their letters are cut. -/
theorem SpellsFlags.ofArgumentsFrom_append (h : SpellsFlags flags arguments) (rest : List Bytes) :
    Directive.ofArgumentsFrom .options (arguments ++ rest) =
      settingFlags flags ++ Directive.ofArgumentsFrom .options rest := by
  induction h with
  | nil => rfl
  | @cons more arguments flags hne _ ih =>
    rw [List.cons_append, ofArgumentsFrom_of_ofArgument (ofArgument_group (.inl hne)), Directive.ofLetters, ih,
      List.append_nil, settingFlags_append, List.append_assoc]

/-- However they are spelled, flags with a pattern option are read as the flags and the pattern. -/
theorem SpellsPattern.ofArgumentsFrom_append (hp : p ≠ []) (h : SpellsPattern role p flags arguments)
    (rest : List Bytes) :
    Directive.ofArgumentsFrom .options (arguments ++ rest) =
      settingFlags flags ++ .pattern role p :: Directive.ofArgumentsFrom .options rest := by
  have hvalue := ofPatternValue_of_ne_nil role hp
  induction h with
  | detached flags =>
    rw [List.cons_append, ofArgumentsFrom_of_ofArgument (ofArgument_group_role flags role [])]
    simp only [Directive.attached, Directive.ofPatternValue, List.isEmpty_nil, if_true, List.append_nil]
    rfl
  | joined flags =>
    have hattached : Directive.attached (0x3D :: p) = p := rfl
    rw [List.singleton_append, ofArgumentsFrom_of_ofArgument (ofArgument_group_role flags role _), hattached,
      hvalue, List.append_assoc, List.singleton_append]
  | attached flags hhead =>
    rw [List.singleton_append, ofArgumentsFrom_of_ofArgument (ofArgument_group_role flags role p),
      attached_of_head hhead, hvalue, List.append_assoc, List.singleton_append]
  | long =>
    rw [List.cons_append, ofArgumentsFrom_of_ofArgument (ofArgument_longName role)]
    rfl
  | longJoined =>
    have hlong := (ofArgument_longValue role p).trans hvalue
    rw [List.singleton_append, ofArgumentsFrom_of_ofArgument hlong]
    rfl
  | behind hfront _ ih =>
    rw [List.append_assoc, hfront.ofArgumentsFrom_append, ih, settingFlags_append, List.append_assoc]

theorem isChange_of_settingFlags : ∀ d ∈ settingFlags flags, d.IsChange := by
  intro d hd
  obtain ⟨f, -, rfl⟩ := List.mem_map.mp hd
  exact .set f.flag

theorem foldl_apply_settingFlags (flags : List LetterFlag) (s : Settings) :
    (settingFlags flags).foldl Directive.apply s = s.setAll flags :=
  List.foldl_map

end Reading

namespace Session

open Config

variable {env : Environment} {before x y : List Bytes} {flags : List LetterFlag} {role : Role} {p : Bytes}

theorem run_eq_of_afterOptions_eq (h : afterOptions env x = afterOptions env y) : run env x = run env y := by
  rw [run, run, ofArguments_eq_settle, ofArguments_eq_settle, h]

/-- Flags have the same effect wherever their letters are cut. -/
theorem afterOptions_spellsFlags (hbefore : Expecting.after (before.map Bytes.untilNul) = .options)
    (h : SpellsFlags flags x) (after : List Bytes) :
    afterOptions env (before ++ x ++ after) =
      afterOptions env before >>= fun s =>
        perform env false (loadNested env maxDepth) (Directive.ofArguments after)
          { s with settings := s.settings.setAll flags } := by
  have hread : ∀ rest, Directive.ofArgumentsFrom .options (x.map Bytes.untilNul ++ rest) =
      settingFlags flags ++ Directive.ofArgumentsFrom .options rest := by
    intro rest
    rw [h.map_untilNul, h.ofArgumentsFrom_append]
  rw [afterOptions_changes hbefore isChange_of_settingFlags hread]
  simp only [foldl_apply_settingFlags]

/-- Flags with a pattern option have the same effect however they are spelled. -/
theorem afterOptions_spellsPattern (hbefore : Expecting.after (before.map Bytes.untilNul) = .options)
    (hp : p ≠ []) (hnul : (0 : UInt8) ∉ p) (h : SpellsPattern role p flags x) (after : List Bytes) :
    afterOptions env (before ++ x ++ after) =
      afterOptions env before >>= fun s =>
        perform env false (loadNested env maxDepth) (Directive.ofArguments after)
          { s with settings := (s.settings.setAll flags).addPattern p role } := by
  have hchanges : ∀ d ∈ settingFlags flags ++ [.pattern role p], d.IsChange := by
    rw [List.forall_mem_append, List.forall_mem_singleton]
    exact ⟨isChange_of_settingFlags, .pattern role p⟩
  have hread : ∀ rest, Directive.ofArgumentsFrom .options (x.map Bytes.untilNul ++ rest) =
      settingFlags flags ++ [.pattern role p] ++ Directive.ofArgumentsFrom .options rest := by
    intro rest
    rw [h.map_untilNul hnul, h.ofArgumentsFrom_append hp, List.append_assoc, List.singleton_append]
  rw [afterOptions_changes hbefore hchanges hread]
  congr 1
  funext s
  rw [List.foldl_append, foldl_apply_settingFlags]
  rfl

/-- Where options are expected, flags with a pattern option set the flags and add the pattern, and flags alone set
the flags, whichever of their spellings stands there. So the spellings of the same options leave the same session
behind the options, whatever stands around them, and give the same run. -/
theorem spellings_agree (hbefore : Expecting.after (before.map Bytes.untilNul) = .options) (hp : p ≠ [])
    (hnul : (0 : UInt8) ∉ p) (env : Environment) (flags : List LetterFlag) (role : Role) (after : List Bytes) :
    (∀ x, SpellsPattern role p flags x →
      afterOptions env (before ++ x ++ after) =
        afterOptions env before >>= fun s =>
          perform env false (loadNested env maxDepth) (Directive.ofArguments after)
            { s with settings := (s.settings.setAll flags).addPattern p role }) ∧
    (∀ x y, SpellsPattern role p flags x → SpellsPattern role p flags y →
      afterOptions env (before ++ x ++ after) = afterOptions env (before ++ y ++ after) ∧
      run env (before ++ x ++ after) = run env (before ++ y ++ after)) ∧
    (∀ x, SpellsFlags flags x →
      afterOptions env (before ++ x ++ after) =
        afterOptions env before >>= fun s =>
          perform env false (loadNested env maxDepth) (Directive.ofArguments after)
            { s with settings := s.settings.setAll flags }) ∧
    ∀ x y, SpellsFlags flags x → SpellsFlags flags y →
      afterOptions env (before ++ x ++ after) = afterOptions env (before ++ y ++ after) ∧
      run env (before ++ x ++ after) = run env (before ++ y ++ after) := by
  refine ⟨fun x hx => ?_, fun x y hx hy => ?_, fun x hx => ?_, fun x y hx hy => ?_⟩
  · exact afterOptions_spellsPattern hbefore hp hnul hx after
  · have hsame : afterOptions env (before ++ x ++ after) = afterOptions env (before ++ y ++ after) := by
      rw [afterOptions_spellsPattern hbefore hp hnul hx, afterOptions_spellsPattern hbefore hp hnul hy]
    exact ⟨hsame, run_eq_of_afterOptions_eq hsame⟩
  · exact afterOptions_spellsFlags hbefore hx after
  · have hsame : afterOptions env (before ++ x ++ after) = afterOptions env (before ++ y ++ after) := by
      rw [afterOptions_spellsFlags hbefore hx, afterOptions_spellsFlags hbefore hy]
    exact ⟨hsame, run_eq_of_afterOptions_eq hsame⟩

/-- A pattern that looks like an option, behind flags in arguments of their own, as the end of their group, and
behind the long name. -/
theorem spellings_agree_dash :
    let env : Environment := { home := none, stdin := ⟨[], none⟩, opened := fun _ => .refused .missing }
    let before := ["-e", "*"].map Bytes.ascii
    let after := ["-I", "f"].map Bytes.ascii
    let apart := ["-c", "-v", "-x", "-i"].map Bytes.ascii
    Expecting.after (before.map Bytes.untilNul) = .options ∧ Bytes.ascii "-i" ≠ [] ∧
      (0 : UInt8) ∉ Bytes.ascii "-i" ∧
      (∀ y ∈ [["-cvx", "-i"], ["-cvx=-i"], ["-cvx-i"], ["-c", "-v", "--exclude", "-i"],
          ["-cv", "--exclude=-i"]].map (·.map Bytes.ascii),
        run env (before ++ apart ++ after) = run env (before ++ y ++ after)) ∧
      afterOptions env (before ++ apart ++ after) = .ok
        { settings :=
            { count := true, cultureInvariant := true, invertMatch := true
              includes := [Bytes.ascii "*"]
              excludes := [Bytes.ascii "-i"]
              operands := [Bytes.ascii "f"] } } := by
  intro env before after apart
  have hbefore : Expecting.after (before.map Bytes.untilNul) = .options := by decide +kernel
  have hp : Bytes.ascii "-i" ≠ [] := by decide
  have hnul : (0 : UInt8) ∉ Bytes.ascii "-i" := by decide
  let flags : List LetterFlag := [.count, .invertMatch]
  let Spells := SpellsPattern .excluding (Bytes.ascii "-i")
  obtain ⟨heffect, hsame, -, -⟩ := spellings_agree hbefore hp hnul env flags .excluding after
  have hflags : SpellsFlags flags [group [.count] [], group [.invertMatch] []] :=
    .cons [.count] (List.cons_ne_nil _ _) (.cons [.invertMatch] (List.cons_ne_nil _ _) .nil)
  have hgroup : SpellsFlags flags [group flags []] := .cons flags (List.cons_ne_nil _ _) .nil
  have happart : Spells flags apart := .behind hflags (.detached [])
  refine ⟨hbefore, hp, hnul, fun y hy => ?_, (heffect _ happart).trans (by decide +kernel)⟩
  refine (hsame apart y happart ?_).2
  simp only [List.map_cons, List.map_nil, List.mem_cons, List.not_mem_nil, or_false] at hy
  rcases hy with rfl | rfl | rfl | rfl | rfl
  · exact .detached flags
  · exact .joined flags
  · exact .attached flags (by decide)
  · exact .behind hflags .long
  · exact .behind hgroup .longJoined

end Session

end NameGlob.Tool
