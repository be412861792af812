import NameGlob.Proofs.Tool.Arguments
import NameGlob.Proofs.Tool.Nesting

/-!
# Operands

The operands of a command line are found from left to right. An argument is the pattern of an option when the
arguments before it leave a pattern to be expected. Any other argument is an operand when it holds no options, or
stands behind an argument that ends them. Configuration files hold options only, so they add no operands.
-/

namespace NameGlob.Tool

/-- The argument at place `i` is the pattern of an option. -/
def IsValue (arguments : List Bytes) (i : Nat) : Prop :=
  ∃ role, Expecting.after (arguments.take i) = .value role

/-- An argument before place `i` ends the options, by `ends`, and is not itself the pattern of an option. -/
def HasEnded (ends : Bytes → Prop) (arguments : List Bytes) (i : Nat) : Prop :=
  ∃ j < i, ¬ IsValue arguments j ∧ ∃ argument ∈ arguments[j]?, ends argument

/-- The argument at place `i` is an operand when `ends` tells which arguments end the options. -/
def IsOperand (ends : Bytes → Prop) (arguments : List Bytes) (i : Nat) : Prop :=
  ¬ IsValue arguments i ∧
    (HasEnded ends arguments i ∨
      ∃ argument ∈ arguments[i]?, argument = [] ∨ argument = [0x2D] ∨ argument.head? ≠ some 0x2D)

instance (arguments : List Bytes) (i : Nat) : Decidable (IsValue arguments i) :=
  match h : Expecting.after (arguments.take i) with
  | .value role => .isTrue ⟨role, h⟩
  | .options => .isFalse fun ⟨_, hrole⟩ => Expecting.noConfusion (h.symm.trans hrole)
  | .operands => .isFalse fun ⟨_, hrole⟩ => Expecting.noConfusion (h.symm.trans hrole)

section Decisions

variable (ends : Bytes → Prop) [DecidablePred ends] (arguments : List Bytes)

instance (i : Nat) : Decidable (HasEnded ends arguments i) :=
  inferInstanceAs (Decidable (∃ j < i, ¬ IsValue arguments j ∧ ∃ argument ∈ arguments[j]?, ends argument))

instance (i : Nat) : Decidable (IsOperand ends arguments i) :=
  inferInstanceAs (Decidable (_ ∧ (_ ∨
    ∃ argument ∈ arguments[i]?, argument = [] ∨ argument = [0x2D] ∨ argument.head? ≠ some 0x2D)))

/-- The operands of an argument list in their order. -/
def operandsBy : List Bytes :=
  ((List.range arguments.length).filter (IsOperand ends arguments ·)).filterMap (arguments[·]?)

end Decisions

section Places

variable {ends : Bytes → Prop} {before rest arguments : List Bytes} {argument : Bytes} {i : Nat}

theorem hasEnded_succ_iff : HasEnded ends arguments (i + 1) ↔
    HasEnded ends arguments i ∨ (¬ IsValue arguments i ∧ ∃ argument ∈ arguments[i]?, ends argument) := by
  constructor
  · rintro ⟨j, hj, hends⟩
    rcases Nat.lt_succ_iff_lt_or_eq.mp hj with hearlier | rfl
    · exact .inl ⟨j, hearlier, hends⟩
    · exact .inr hends
  · rintro (⟨j, hj, hends⟩ | hends)
    · exact ⟨j, Nat.lt_succ_of_lt hj, hends⟩
    · exact ⟨i, Nat.lt_succ_self i, hends⟩

theorem after_take_succ (h : arguments[i]? = some argument) :
    Expecting.after (arguments.take (i + 1)) = (Expecting.after (arguments.take i)).next argument := by
  rw [List.take_add_one, h, Option.toList_some, Expecting.after_append_singleton]

theorem after_take_succ_of_none (h : arguments[i]? = none) :
    Expecting.after (arguments.take (i + 1)) = Expecting.after (arguments.take i) := by
  rw [List.take_add_one, h, Option.toList_none, List.append_nil]

/-- Nothing but operands is expected behind the end of the options. -/
theorem after_take_eq_operands_iff (arguments : List Bytes) (i : Nat) :
    Expecting.after (arguments.take i) = .operands ↔ HasEnded EndsOptions arguments i := by
  induction i with
  | zero =>
    refine iff_of_false Expecting.noConfusion ?_
    rintro ⟨j, hj, -⟩
    exact Nat.not_lt_zero j hj
  | succ i ih =>
    rw [hasEnded_succ_iff]
    cases hargument : arguments[i]? with
    | none =>
      rw [after_take_succ_of_none hargument, ih]
      simp
    | some argument =>
      rw [after_take_succ hargument, ← ih, IsValue]
      cases Expecting.after (arguments.take i) with
      | options => simp [Expecting.next_eq_operands_iff]
      | value role => simp [Expecting.next]
      | operands => simp [Expecting.next]

/-- An argument is the pattern of an option when the argument before it awaits one, is read as options, and is
not itself the pattern of an option. -/
theorem isValue_succ_iff (h : arguments[i]? = some argument) : IsValue arguments (i + 1) ↔
    ¬ IsValue arguments i ∧ ¬ HasEnded EndsOptions arguments i ∧ ∃ role, Awaits role argument := by
  rw [IsValue, after_take_succ h, IsValue, ← after_take_eq_operands_iff]
  cases Expecting.after (arguments.take i) with
  | options => simp [Expecting.next_eq_value_iff]
  | value role => simp [Expecting.next]
  | operands => simp [Expecting.next]

theorem isOperand_iff (h : arguments[i]? = some argument) : IsOperand EndsOptions arguments i ↔
    Expecting.after (arguments.take i) = .operands ∨
      (Expecting.after (arguments.take i) = .options ∧
        (argument = [] ∨ argument = [0x2D] ∨ argument.head? ≠ some 0x2D)) := by
  rw [IsOperand, ← after_take_eq_operands_iff, IsValue, h]
  cases Expecting.after (arguments.take i) with
  | options => simp
  | value role => simp
  | operands => simp

end Places

namespace Directive

variable {argument option name value : Bytes} {d : Directive}

/-- The operand that a directive adds. -/
def operand? : Directive → Option Bytes
  | .operand value => some value
  | _ => none

theorem operand?_ofPatternValue {role : Role} (h : d ∈ (ofPatternValue role value).1) : d.operand? = none := by
  rw [ofPatternValue] at h
  split at h
  · cases h
  · obtain rfl := List.mem_singleton.mp h
    rfl

theorem operand?_ofLongName (h : d ∈ (ofLongName name).1) : d.operand? = none := by
  rw [ofLongName] at h
  split at h
  · cases h
  split at h
  · cases h
  split at h
  · rename_i entry hfind
    obtain rfl := List.mem_singleton.mp h
    have hplain : ∀ entry ∈ plainLong, entry.2.operand? = none := by decide
    exact hplain entry (List.mem_of_find?_eq_some hfind)
  · obtain rfl := List.mem_singleton.mp h
    rfl

theorem operand?_ofLongValue (h : d ∈ (ofLongValue name value).1) : d.operand? = none := by
  rw [ofLongValue] at h
  split at h
  · obtain rfl := List.mem_singleton.mp h
    rfl
  split at h
  · obtain rfl := List.mem_singleton.mp h
    rfl
  split at h
  · exact operand?_ofPatternValue h
  split at h
  · exact operand?_ofPatternValue h
  · obtain rfl := List.mem_singleton.mp h
    rfl

theorem operand?_ofLong (h : d ∈ (ofLong option).1) : d.operand? = none := by
  rw [ofLong] at h
  split at h
  · exact operand?_ofLongName h
  · exact operand?_ofLongValue h

theorem operand?_ofLetter (letter : UInt8) : (ofLetter letter).operand? = none := by
  unfold ofLetter
  grind [operand?]

/-- Options add no operands. -/
theorem operand?_ofLetters {letters : Bytes} (h : d ∈ (ofLetters letters).1) : d.operand? = none := by
  induction letters with
  | nil => cases h
  | cons b rest ih =>
    rw [ofLetters] at h
    split at h
    · split at h
      · cases h
      · exact operand?_ofLong h
    split at h
    · exact operand?_ofPatternValue h
    · rcases List.mem_cons.mp h with rfl | hrest
      · exact operand?_ofLetter b
      · exact ih hrest

theorem filterMap_operand?_ofLetters (letters : Bytes) : (ofLetters letters).1.filterMap operand? = [] :=
  List.filterMap_eq_nil_iff.mpr fun _ => operand?_ofLetters

/-- An argument is an operand where nothing else is expected, or where it might hold options but holds none. -/
theorem filterMap_operand?_directives (expecting : Expecting) (argument : Bytes) :
    (expecting.directives argument).filterMap operand? =
      if expecting = .operands ∨
        (expecting = .options ∧ (argument = [] ∨ argument = [0x2D] ∨ argument.head? ≠ some 0x2D))
      then [argument] else [] := by
  cases expecting with
  | value role => rfl
  | operands => rfl
  | options =>
    rw [Expecting.directives]
    unfold ofArgument
    split
    · rw [filterMap_operand?_ofLetters, if_neg (by simp)]
    · rename_i hnone
      refine (if_pos (.inr ⟨rfl, ?_⟩)).symm
      cases argument with
      | nil => exact .inl rfl
      | cons b rest =>
        by_cases hb : b = 0x2D
        · subst hb
          cases rest with
          | nil => exact .inr (.inl rfl)
          | cons letter rest => exact absurd rfl (hnone letter rest)
        · exact .inr (.inr (by simpa using hb))

/-- The operands among the directives of `rest`, which stands behind `before`. -/
theorem filterMap_operand?_ofArgumentsFrom (before rest : List Bytes) :
    (ofArgumentsFrom (Expecting.after before) rest).filterMap operand? =
      ((List.range' before.length rest.length).filter
        (IsOperand EndsOptions (before ++ rest) ·)).filterMap ((before ++ rest)[·]?) := by
  -- `before` grows by the arguments that are read, while places are counted in the whole list
  induction rest generalizing before with
  | nil => cases Expecting.after before <;> rfl
  | cons argument rest ih =>
    have hsplit : before ++ argument :: rest = (before ++ [argument]) ++ rest := by simp
    have hget : (before ++ argument :: rest)[before.length]? = some argument := by simp
    have htake : (before ++ argument :: rest).take before.length = before := by simp
    have hrest := ih (before ++ [argument])
    rw [← hsplit, List.length_append, List.length_singleton, Expecting.after_append_singleton] at hrest
    have hoperand := isOperand_iff hget
    rw [htake] at hoperand
    rw [ofArgumentsFrom_cons, List.filterMap_append, filterMap_operand?_directives, hrest, List.length_cons,
      List.range'_succ]
    by_cases h : IsOperand EndsOptions (before ++ argument :: rest) before.length
    · rw [if_pos (hoperand.mp h), List.filter_cons_of_pos (by rwa [decide_eq_true_eq]), List.filterMap_cons_some hget,
        List.singleton_append]
    · rw [if_neg (mt hoperand.mpr h), List.filter_cons_of_neg (by rwa [decide_eq_true_eq]), List.nil_append]

end Directive

section Sessions

variable {env : Environment} {carryOut : List Directive → Session → Except Outcome Session}
  {loadConfig : Bytes → Session → Except Outcome Session} {inConfig : Bool} {s s' : Session}

theorem Session.operands_performOne {d : Directive}
    (hload : ∀ name s s', loadConfig name s = .ok s' → s'.settings.operands = s.settings.operands)
    (h : performOne env inConfig loadConfig s d = .ok s') :
    s'.settings.operands = s.settings.operands ++ d.operand?.toList := by
  cases d with
  | config name => simpa [Directive.operand?] using hload name s s' h
  | help => simp [performOne] at h
  | version => simp [performOne] at h
  | misuse e =>
    cases inConfig with
    | false => simp [performOne, misuse] at h
    | true =>
      obtain rfl := Except.ok.inj h
      simp [Directive.operand?, report]
  | set flag =>
    obtain rfl := Except.ok.inj h
    cases flag <;> simp [Directive.operand?, Settings.set]
  | pattern role value =>
    obtain rfl := Except.ok.inj h
    cases role <;> simp [Directive.operand?, Settings.addPattern]
  | keep | operand =>
    obtain rfl := Except.ok.inj h
    simp [Directive.operand?]

theorem Session.operands_perform {ds : List Directive}
    (hload : ∀ name s s', loadConfig name s = .ok s' → s'.settings.operands = s.settings.operands)
    (h : perform env inConfig loadConfig ds s = .ok s') :
    s'.settings.operands = s.settings.operands ++ ds.filterMap Directive.operand? := by
  induction ds generalizing s with
  | nil =>
    obtain rfl := Except.ok.inj h
    simp
  | cons d rest ih =>
    rw [perform_cons] at h
    obtain ⟨after, hfirst, hrest⟩ := exists_ok_of_bind h
    rw [ih hrest, operands_performOne hload hfirst, List.append_assoc, List.filterMap_cons]
    cases d.operand? <;> rfl

/-- A line of a configuration file holds options, and so no operand. -/
theorem Config.filterMap_operand?_directives (line : Bytes) :
    (directives line).filterMap Directive.operand? = [] := by
  have hline : Bytes.untilNul (0x2D :: 0x2D :: line) = 0x2D :: 0x2D :: Bytes.untilNul line := rfl
  rw [directives, Directive.ofArguments, List.map_singleton, hline, Directive.ofArgumentsFrom_cons,
    List.filterMap_append, List.append_eq_nil_iff]
  constructor
  · exact Directive.filterMap_operand?_ofLetters (0x2D :: Bytes.untilNul line)
  · cases Expecting.next .options (0x2D :: 0x2D :: Bytes.untilNul line) <;> rfl

theorem Config.operands_performLines {path : Bytes} {number : Nat} {lines : List Bytes} {faulty : Bool}
    (hcarryOut : ∀ ds s s', carryOut ds s = .ok s' →
      s'.settings.operands = s.settings.operands ++ ds.filterMap Directive.operand?)
    (h : performLines carryOut path number lines s = .ok (faulty, s')) :
    s'.settings.operands = s.settings.operands := by
  induction lines generalizing number faulty s s' with
  | nil =>
    obtain ⟨-, rfl⟩ := Prod.mk.inj (Except.ok.inj h)
    rfl
  | cons line rest ih =>
    rw [performLines] at h
    dsimp only at h
    split at h
    · obtain ⟨after, hline, hrest⟩ := exists_ok_of_bind h
      have hafter := hcarryOut _ _ _ hline
      rw [filterMap_operand?_directives, List.append_nil] at hafter
      rw [← hafter]
      split at hrest
      · obtain ⟨⟨_, last⟩, hlines, hlast⟩ := exists_ok_of_bind hrest
        obtain ⟨-, rfl⟩ := Prod.mk.inj (Except.ok.inj hlast)
        exact (ih hlines :)
      · exact ih hrest
    · exact ih h

theorem Config.operands_load {depth : Nat} {name : Bytes}
    (hcarryOut : ∀ ds s s', carryOut ds s = .ok s' →
      s'.settings.operands = s.settings.operands ++ ds.filterMap Directive.operand?)
    (h : load env depth carryOut name s = .ok s') : s'.settings.operands = s.settings.operands := by
  cases hopen : openOption env name s with
  | mk result opened =>
    obtain ⟨sources, rfl⟩ := exists_consulted_of_open hopen
    cases result with
    | error e =>
      rw [load_of_refused hopen] at h
      split at h
      · obtain rfl := Except.ok.inj h
        rfl
      · cases h
    | ok file =>
      obtain ⟨path, found⟩ := file
      by_cases hread : path ∈ s.loaded.map LoadedFile.path
      · rw [load_of_read hopen hread] at h
        obtain rfl := Except.ok.inj h
        rfl
      · rw [load_of_new hopen hread] at h
        obtain ⟨⟨faulty, last⟩, hlines, hclose⟩ := exists_ok_of_bind h
        obtain rfl := eq_of_close hclose
        exact (operands_performLines hcarryOut hlines :)

/-- A configuration file adds no operands. -/
theorem Config.operands_loadNested {room : Nat} {name : Bytes} (h : loadNested env room name s = .ok s') :
    s'.settings.operands = s.settings.operands := by
  induction room generalizing name s s' with
  | zero =>
    obtain rfl := Except.ok.inj h
    rfl
  | succ room ih =>
    exact operands_load (fun ds s s' => Session.operands_perform fun name s s' => ih) h

/-- The operands of a command line that is accepted are the arguments that are no pattern of an option and that
are empty, `-`, begin with another character, or stand behind an argument that ends the options. Patterns of
options stand behind the arguments that await one. -/
theorem Session.operands_afterOptions {arguments : List Bytes} (h : afterOptions env arguments = .ok s) :
    s.settings.operands = operandsBy EndsOptions (arguments.map Bytes.untilNul) ∧
    ∀ i argument, (arguments.map Bytes.untilNul)[i]? = some argument →
      (IsValue (arguments.map Bytes.untilNul) (i + 1) ↔
        ¬ IsValue (arguments.map Bytes.untilNul) i ∧ ¬ HasEnded EndsOptions (arguments.map Bytes.untilNul) i ∧
        ∃ role, Awaits role argument) := by
  refine ⟨?_, fun i argument hargument => isValue_succ_iff hargument⟩
  have hoperands := operands_perform (fun _ _ _ => Config.operands_loadNested) h
  have hdirectives := Directive.filterMap_operand?_ofArgumentsFrom [] (arguments.map Bytes.untilNul)
  rw [hoperands, operandsBy, List.range_eq_range']
  exact hdirectives

/-- Two patterns that look like options, an empty operand, and a group of letters that ends the options. -/
theorem operands_afterOptions_group :
    let env : Environment := { home := none, stdin := ⟨[], none⟩, opened := fun _ => .refused .missing }
    let arguments := ["-ie", "-x", "a", "--exclude=", "--", "", "-v-", "-c"].map Bytes.ascii
    ∃ s, Session.afterOptions env arguments = .ok s ∧
      s.settings.operands = ["a", "", "-c"].map Bytes.ascii ∧
      operandsBy EndsOptions (arguments.map Bytes.untilNul) = ["a", "", "-c"].map Bytes.ascii := by
  intro env arguments
  have h : Session.afterOptions env arguments = .ok
      { settings :=
          { cultureInvariant := false, ignoreCase := true, invertMatch := true
            includes := [Bytes.ascii "-x"]
            excludes := [Bytes.ascii "--"]
            operands := ["a", "", "-c"].map Bytes.ascii } } := by
    decide +kernel
  have hoperands := (Session.operands_afterOptions h).1
  exact ⟨_, h, rfl, hoperands.symm⟩

/-- The options end at `-c-`, so that `-i` is an operand although no argument is `--`. -/
theorem operands_not_by_dashes :
    let env : Environment := { home := none, stdin := ⟨[], none⟩, opened := fun _ => .refused .missing }
    let arguments := ["-c-", "-i"].map Bytes.ascii
    ∃ s, Session.afterOptions env arguments = .ok s ∧ s.settings.operands = [Bytes.ascii "-i"] ∧
      operandsBy (· = Bytes.ascii "--") (arguments.map Bytes.untilNul) = [] := by
  intro env arguments
  have h : Session.afterOptions env arguments = .ok
      { settings := { count := true, operands := [Bytes.ascii "-i"] } } := by
    decide +kernel
  exact ⟨_, h, rfl, by decide +kernel⟩

end Sessions

end NameGlob.Tool
