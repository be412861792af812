import Mathlib.Data.List.TakeWhile
import NameGlob.Tool.Config

/-!
# Arguments from left to right

An argument list is read from left to right, and how an argument is read depends on what the arguments before it
leave to be expected. An option argument awaits the next argument by the way it ends: behind letters of options
without a pattern stands a pattern option without its pattern. A further `-` at that place ends the options.
-/

namespace NameGlob.Tool

namespace Expecting

/-- What is to be expected behind an argument. -/
def next : Expecting → Bytes → Expecting
  | .options, argument => (Directive.ofArgument argument).2
  | .value _, _ => .options
  | .operands, _ => .operands

/-- The directives of an argument. -/
def directives : Expecting → Bytes → List Directive
  | .options, argument => (Directive.ofArgument argument).1
  | .value role, argument => [.pattern role argument]
  | .operands, argument => [.operand argument]

/-- What is to be expected behind the arguments of a command line. -/
def after (arguments : List Bytes) : Expecting :=
  arguments.foldl next .options

theorem after_append_singleton (arguments : List Bytes) (argument : Bytes) :
    after (arguments ++ [argument]) = (after arguments).next argument := by
  rw [after, List.foldl_append]
  rfl

end Expecting

namespace Directive

theorem ofArgumentsFrom_cons (expecting : Expecting) (argument : Bytes) (rest : List Bytes) :
    ofArgumentsFrom expecting (argument :: rest) =
      expecting.directives argument ++ ofArgumentsFrom (expecting.next argument) rest := by
  cases expecting with
  | options => rfl
  | value role => rfl
  | operands => rfl

/-- Argument lists are read one behind the other when the first leaves no pattern to be awaited. -/
theorem ofArgumentsFrom_append {expecting : Expecting} {front : List Bytes}
    (h : front.foldl Expecting.next expecting = .options) (back : List Bytes) :
    ofArgumentsFrom expecting (front ++ back) =
      ofArgumentsFrom expecting front ++ ofArgumentsFrom .options back := by
  induction front generalizing expecting with
  | nil =>
    obtain rfl : expecting = .options := h
    rfl
  | cons argument front ih =>
    rw [List.cons_append, ofArgumentsFrom_cons, ofArgumentsFrom_cons, ih h, List.append_assoc]

end Directive

/-- The letters of short options without a pattern. -/
def isPlainLetter (b : UInt8) : Bool :=
  b != 0x2D && (Directive.roleOf? b).isNone

/-- What stands behind the `-` of an argument and its letters of options without a pattern. -/
def behindLetters : Bytes → Option Bytes
  | 0x2D :: letters => some (letters.dropWhile isPlainLetter)
  | _ => none

/-- The letter of a pattern option. -/
def Role.letter : Role → UInt8
  | .including => 0x65
  | .excluding => 0x78

/-- The long name of a pattern option. -/
def Role.longName : Role → Bytes
  | .including => Bytes.ascii "include"
  | .excluding => Bytes.ascii "exclude"

/-- The ends of arguments whose pattern stands in the next argument: a pattern option without its pattern, in both
spellings. -/
def Role.openEnds (role : Role) : List Bytes :=
  [[role.letter], [role.letter, 0x3D], 0x2D :: role.longName, 0x2D :: (role.longName ++ [0x3D])]

/-- The argument holds letters of options without a pattern, and behind them `ending`. -/
def EndsIn (ending argument : Bytes) : Prop :=
  ∃ letters, argument = 0x2D :: (letters ++ ending) ∧ ∀ b ∈ letters, isPlainLetter b = true

/-- The argument holds a pattern option whose pattern stands in the next argument. -/
def Awaits (role : Role) (argument : Bytes) : Prop :=
  ∃ ending ∈ role.openEnds, EndsIn ending argument

/-- The argument ends the options: it is `--`, or holds letters of options without a pattern between its two
dashes. -/
def EndsOptions (argument : Bytes) : Prop :=
  EndsIn [0x2D] argument

section Letters

variable {b : UInt8} {rest letters option argument ending : Bytes} {role : Role}

theorem roleOf?_eq_some_iff : Directive.roleOf? b = some role ↔ b = role.letter := by
  unfold Directive.roleOf?
  cases role <;> grind [Role.letter]

theorem isPlainLetter_eq_false_iff : isPlainLetter b = false ↔ b = 0x2D ∨ ∃ role, b = Role.letter role := by
  simp only [isPlainLetter, Bool.and_eq_false_iff, bne_eq_false_iff_eq, Option.isNone_eq_false_iff,
    Option.isSome_iff_exists, roleOf?_eq_some_iff]

theorem ofLetters_cons_of_plain (h : isPlainLetter b = true) (rest : Bytes) :
    Directive.ofLetters (b :: rest) =
      (Directive.ofLetter b :: (Directive.ofLetters rest).1, (Directive.ofLetters rest).2) := by
  simp only [isPlainLetter, Bool.and_eq_true, bne_iff_ne, Option.isNone_iff_eq_none] at h
  rw [Directive.ofLetters, if_neg h.1, h.2]

theorem ofLetters_cons_role (role : Role) (rest : Bytes) :
    Directive.ofLetters (role.letter :: rest) = Directive.ofPatternValue role (Directive.attached rest) := by
  have hrole := roleOf?_eq_some_iff.mpr (rfl : role.letter = role.letter)
  have hdash : role.letter ≠ 0x2D := by cases role <;> decide
  rw [Directive.ofLetters, if_neg hdash, hrole]

/-- Letters of options without a pattern leave nothing to be expected. -/
theorem ofLetters_dropWhile (letters : Bytes) :
    (Directive.ofLetters (letters.dropWhile isPlainLetter)).2 = (Directive.ofLetters letters).2 := by
  induction letters with
  | nil => rfl
  | cons b rest ih =>
    by_cases hb : isPlainLetter b = true
    · rw [List.dropWhile_cons_of_pos hb, ih, ofLetters_cons_of_plain hb]
    · rw [List.dropWhile_cons_of_neg hb]

theorem attached_eq_nil_iff : Directive.attached rest = [] ↔ rest = [] ∨ rest = [0x3D] := by
  unfold Directive.attached
  grind

theorem ofPatternValue_snd (role : Role) (value : Bytes) :
    (Directive.ofPatternValue role value).2 = if value = [] then .value role else .options := by
  cases value with
  | nil => rfl
  | cons b rest => rfl

theorem ofLongName_snd (name : Bytes) : (Directive.ofLongName name).2 =
    if name = Role.including.longName then .value .including
    else if name = Role.excluding.longName then .value .excluding
    else .options := by
  unfold Directive.ofLongName Role.longName
  grind

theorem ofLongValue_snd (name value : Bytes) : (Directive.ofLongValue name value).2 =
    if name = Role.including.longName ∧ value = [] then .value .including
    else if name = Role.excluding.longName ∧ value = [] then .value .excluding
    else .options := by
  by_cases hincluding : name = Role.including.longName
  · subst hincluding
    rw [Directive.ofLongValue, if_neg (by decide), if_neg (by decide), if_pos (by decide), ofPatternValue_snd]
    simp [Role.longName, Bytes.ascii]
  by_cases hexcluding : name = Role.excluding.longName
  · subst hexcluding
    rw [Directive.ofLongValue, if_neg (by decide), if_neg (by decide), if_neg (by decide),
      if_pos (by decide), ofPatternValue_snd]
    simp [Role.longName, Bytes.ascii]
  · rw [if_neg (fun h => hincluding h.1), if_neg (fun h => hexcluding h.1)]
    unfold Directive.ofLongValue
    grind [Role.longName]

/-- A long option that holds an `=` is split at the first one. -/
theorem ofLong_of_dropWhile {value : Bytes} (h : option.dropWhile (· != 0x3D) = b :: value) :
    ∃ name, option = name ++ 0x3D :: value ∧ (0x3D : UInt8) ∉ name ∧
      Directive.ofLong option = Directive.ofLongValue name value := by
  have hb : b = 0x3D := by
    have hhead := List.head?_dropWhile_not (· != 0x3D) option
    simpa [h] using hhead
  subst hb
  refine ⟨option.takeWhile (· != 0x3D), ?_, fun hmem => ?_, ?_⟩
  · rw [← h, List.takeWhile_append_dropWhile]
  · have hall := List.all_eq_true.mp List.all_takeWhile _ hmem
    simp at hall
  · rw [Directive.ofLong, h]

/-- A long option awaits a pattern when it is a pattern option without its pattern, and it ends nothing. -/
theorem ofLong_snd (option : Bytes) :
    (∃ role, (Directive.ofLong option).2 = .value role ∧
      (option = role.longName ∨ option = role.longName ++ [0x3D])) ∨
    (Directive.ofLong option).2 = .options := by
  cases hvalue : option.dropWhile (· != 0x3D) with
  | nil =>
    rw [Directive.ofLong, hvalue]
    dsimp only
    rw [ofLongName_snd]
    grind
  | cons b value =>
    obtain ⟨name, rfl, -, hlong⟩ := ofLong_of_dropWhile hvalue
    rw [hlong, ofLongValue_snd]
    grind

/-- What is to be expected behind letters of which the first is none of an option without a pattern. -/
theorem ofLetters_snd (h : ∀ b ∈ ending.head?, isPlainLetter b = false) :
    (∃ role, (Directive.ofLetters ending).2 = .value role ∧ ending ∈ role.openEnds) ∨
    ((Directive.ofLetters ending).2 = .operands ∧ ending = [0x2D]) ∨
    (Directive.ofLetters ending).2 = .options := by
  cases ending with
  | nil => exact .inr (.inr rfl)
  | cons b rest =>
    rcases isPlainLetter_eq_false_iff.mp (h b rfl) with rfl | ⟨role, rfl⟩
    · cases rest with
      | nil => exact .inr (.inl ⟨rfl, rfl⟩)
      | cons c rest =>
        have hlong : Directive.ofLetters (0x2D :: c :: rest) = Directive.ofLong (c :: rest) := rfl
        rw [hlong]
        rcases ofLong_snd (c :: rest) with ⟨role, hvalue, hname⟩ | hoptions
        · refine .inl ⟨role, hvalue, ?_⟩
          rcases hname with hname | hname <;> simp [Role.openEnds, hname]
        · exact .inr (.inr hoptions)
    · rw [ofLetters_cons_role, ofPatternValue_snd]
      by_cases hattached : Directive.attached rest = []
      · refine .inl ⟨role, if_pos hattached, ?_⟩
        rcases attached_eq_nil_iff.mp hattached with rfl | rfl <;> simp [Role.openEnds]
      · exact .inr (.inr (if_neg hattached))

theorem next_of_behindLetters (h : behindLetters argument = some ending) :
    Expecting.options.next argument = (Directive.ofLetters ending).2 := by
  unfold behindLetters at h
  split at h
  · rename_i letters
    obtain rfl := Option.some.inj h
    rw [ofLetters_dropWhile]
    cases letters with
    | nil => rfl
    | cons b rest => rfl
  · cases h

theorem next_of_behindLetters_eq_none (h : behindLetters argument = none) :
    Expecting.options.next argument = .options := by
  unfold Expecting.next Directive.ofArgument
  dsimp only
  split
  · cases h
  · rfl

theorem head?_behindLetters (h : behindLetters argument = some ending) :
    ∀ b ∈ ending.head?, isPlainLetter b = false := by
  intro b hb
  unfold behindLetters at h
  split at h
  · rename_i letters
    obtain rfl := Option.some.inj h
    have hhead := List.head?_dropWhile_not isPlainLetter letters
    rwa [Option.mem_def.mp hb] at hhead
  · cases h

theorem behindLetters_eq_some_iff (hhead : ∀ b ∈ ending.head?, isPlainLetter b = false) :
    behindLetters argument = some ending ↔ EndsIn ending argument := by
  constructor
  · intro h
    unfold behindLetters at h
    split at h
    · rename_i letters
      obtain rfl := Option.some.inj h
      refine ⟨letters.takeWhile isPlainLetter, ?_, fun b hb => List.all_eq_true.mp List.all_takeWhile b hb⟩
      rw [List.takeWhile_append_dropWhile]
    · cases h
  · rintro ⟨letters, rfl, hletters⟩
    rw [behindLetters, List.dropWhile_append_of_pos hletters]
    cases ending with
    | nil => rfl
    | cons b rest => rw [List.dropWhile_cons_of_neg (Bool.not_eq_true _ ▸ hhead b rfl)]

theorem endsOptions_iff : EndsOptions argument ↔ behindLetters argument = some [0x2D] := by
  refine (behindLetters_eq_some_iff fun b hb => ?_).symm
  obtain rfl := Option.some.inj hb
  rfl

instance (argument : Bytes) : Decidable (EndsOptions argument) :=
  decidable_of_iff _ endsOptions_iff.symm

theorem awaits_iff : Awaits role argument ↔
    ∃ ending ∈ role.openEnds, behindLetters argument = some ending := by
  have hheads : ∀ ending ∈ role.openEnds, ending.head?.any isPlainLetter = false := by
    cases role <;> decide
  refine exists_congr fun ending => and_congr_right fun hopen => ?_
  refine (behindLetters_eq_some_iff fun b hb => ?_).symm
  have hhead := hheads ending hopen
  rwa [Option.mem_def.mp hb, Option.any_some] at hhead

namespace Expecting

/-- What an argument leaves to be expected: the pattern that it awaits, nothing but operands, or options. -/
theorem next_cases (argument : Bytes) :
    (∃ role, options.next argument = .value role ∧
      ∃ ending ∈ role.openEnds, behindLetters argument = some ending) ∨
    (options.next argument = .operands ∧ behindLetters argument = some [0x2D]) ∨
    options.next argument = .options := by
  cases h : behindLetters argument with
  | none => exact .inr (.inr (next_of_behindLetters_eq_none h))
  | some ending =>
    rw [next_of_behindLetters h]
    rcases ofLetters_snd (head?_behindLetters h) with ⟨role, hvalue, hopen⟩ | ⟨hoperands, rfl⟩ | hoptions
    · exact .inl ⟨role, hvalue, ending, hopen, rfl⟩
    · exact .inr (.inl ⟨hoperands, rfl⟩)
    · exact .inr (.inr hoptions)

/-- The arguments that await a pattern. -/
theorem next_eq_value_iff : options.next argument = .value role ↔ Awaits role argument := by
  rw [awaits_iff]
  constructor
  · intro h
    rcases next_cases argument with ⟨role', hvalue, hopen⟩ | ⟨hoperands, -⟩ | hoptions
    · obtain rfl := Expecting.value.inj (h.symm.trans hvalue)
      exact hopen
    · cases h.symm.trans hoperands
    · cases h.symm.trans hoptions
  · rintro ⟨ending, hopen, hbehind⟩
    rw [next_of_behindLetters hbehind]
    have hends : ∀ ending ∈ role.openEnds, (Directive.ofLetters ending).2 = .value role := by
      cases role <;> decide
    exact hends ending hopen

/-- The arguments that end the options. -/
theorem next_eq_operands_iff : options.next argument = .operands ↔ EndsOptions argument := by
  rw [endsOptions_iff]
  constructor
  · intro h
    rcases next_cases argument with ⟨role, hvalue, -⟩ | ⟨-, hbehind⟩ | hoptions
    · cases h.symm.trans hvalue
    · exact hbehind
    · cases h.symm.trans hoptions
  · intro h
    rw [next_of_behindLetters h]
    rfl

end Expecting

end Letters

namespace Session

/-- The session after the options of the command line, before an operand may become a pattern. -/
def afterOptions (env : Environment) (arguments : List Bytes) : Except Outcome Session :=
  perform env false (Config.loadNested env Config.maxDepth) (Directive.ofArguments arguments) {}

/-- What is left to do behind the options. Without a pattern to include the first operand is one, and a conversion
needs one. -/
def settle (s : Session) : Except Outcome Session :=
  let s := { s with settings := s.settings.promoteOperand }
  if s.settings.includes.isEmpty && s.settings.converts then s.misuse false .missingPattern
  else .ok s

theorem ofArguments_eq_settle (env : Environment) (arguments : List Bytes) :
    ofArguments env arguments = afterOptions env arguments >>= settle :=
  rfl

theorem perform_append {env : Environment} {inConfig : Bool} {loadConfig : Bytes → Session → Except Outcome Session}
    (ds es : List Directive) (s : Session) :
    perform env inConfig loadConfig (ds ++ es) s =
      perform env inConfig loadConfig ds s >>= perform env inConfig loadConfig es := by
  rw [perform, List.foldlM_append]
  rfl

/-- A command line is carried out one part after the other when the first leaves options to be expected. -/
theorem afterOptions_append {front : List Bytes}
    (h : Expecting.after (front.map Bytes.untilNul) = .options) (env : Environment) (back : List Bytes) :
    afterOptions env (front ++ back) = afterOptions env front >>=
      perform env false (Config.loadNested env Config.maxDepth) (Directive.ofArguments back) := by
  rw [afterOptions, Directive.ofArguments, List.map_append, Directive.ofArgumentsFrom_append h, perform_append]
  rfl

end Session

end NameGlob.Tool
