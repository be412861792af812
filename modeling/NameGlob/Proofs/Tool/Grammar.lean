import NameGlob.Proofs.Tool.Spellings

/-!
# A grammar of command lines

The command lines without a misuse, and without a call for help or for the version, are derived by rules that say
nothing of how arguments are read. The letters of flags may stand in front of any option. An option that takes a
pattern has it in its own argument, or in the next one when its own holds none; where no argument follows, the
pattern is empty. The reader of arguments derives all these command lines and no others.
-/

namespace NameGlob.Tool

/-- The long name of a flag. -/
def Flag.longName : Flag → Bytes
  | .count => Bytes.ascii "count"
  | .cultureInvariant => Bytes.ascii "culture-invariant"
  | .decompress => Bytes.ascii "decompress"
  | .dos => Bytes.ascii "dos"
  | .escape => Bytes.ascii "escape"
  | .hasWildcards => Bytes.ascii "has-wildcards"
  | .ignoreCase => Bytes.ascii "ignore-case"
  | .invertMatch => Bytes.ascii "invert-match"
  | .regex => Bytes.ascii "regex"
  | .unescape => Bytes.ascii "unescape"
  | .wql => Bytes.ascii "wql"

/-- The text of a long option that holds all that it needs. -/
inductive LongAsks : Bytes → Directive → Prop
  | set (flag : Flag) : LongAsks flag.longName (.set flag)
  | keep (chars : Bytes) : LongAsks (Bytes.ascii "escape=" ++ chars) (.keep chars)
  | defaultFile : LongAsks (Bytes.ascii "config") (.config [])
  | file (name : Bytes) : LongAsks (Bytes.ascii "config=" ++ name) (.config name)
  | pattern (role : Role) {p : Bytes} (hne : p ≠ []) : LongAsks (role.longName ++ 0x3D :: p) (.pattern role p)

/-- The end of an argument with an option that holds all that it needs. A pattern may stand behind an `=`. -/
inductive OptionAsks : Bytes → Directive → Prop
  | long {option : Bytes} {d : Directive} (h : LongAsks option d) : OptionAsks (0x2D :: option) d
  | attached (role : Role) {p : Bytes} (hne : p ≠ []) (hhead : p.head? ≠ some 0x3D) :
      OptionAsks (role.letter :: p) (.pattern role p)
  | joined (role : Role) {p : Bytes} (hne : p ≠ []) : OptionAsks (role.letter :: 0x3D :: p) (.pattern role p)

/-- The arguments ask for these directives. -/
inductive Asks : List Bytes → List Directive → Prop
  | nil : Asks [] []
  | operand {argument : Bytes} {rest : List Bytes} {ds : List Directive}
      (h : argument = [] ∨ argument = [0x2D] ∨ argument.head? ≠ some 0x2D) (hrest : Asks rest ds) :
      Asks (argument :: rest) (.operand argument :: ds)
  | flags {flags : List LetterFlag} {rest : List Bytes} {ds : List Directive} (hne : flags ≠ [])
      (hrest : Asks rest ds) : Asks (group flags [] :: rest) (settingFlags flags ++ ds)
  | option (flags : List LetterFlag) {ending : Bytes} {d : Directive} {rest : List Bytes} {ds : List Directive}
      (h : OptionAsks ending d) (hrest : Asks rest ds) :
      Asks (group flags ending :: rest) (settingFlags flags ++ d :: ds)
  | awaiting (flags : List LetterFlag) (role : Role) {ending : Bytes} (p : Bytes) {rest : List Bytes}
      {ds : List Directive} (h : ending ∈ role.openEnds) (hrest : Asks rest ds) :
      Asks (group flags ending :: p :: rest) (settingFlags flags ++ .pattern role p :: ds)
  | last (flags : List LetterFlag) (role : Role) {ending : Bytes} (h : ending ∈ role.openEnds) :
      Asks [group flags ending] (settingFlags flags ++ [.pattern role []])
  /-- Behind the end of the options there are operands only. -/
  | ends (flags : List LetterFlag) (operands : List Bytes) :
      Asks (group flags [0x2D] :: operands) (settingFlags flags ++ operands.map .operand)

/-- The directive changes what is asked for. It is no misuse, and no call for help or for the version. -/
def Directive.IsProper : Directive → Prop
  | .help | .version | .misuse _ => False
  | _ => True

theorem Directive.IsChange.isProper {d : Directive} (h : d.IsChange) : d.IsProper := by
  cases h <;> trivial

section Reading

variable {option letters ending argument : Bytes} {arguments : List Bytes} {flags : List LetterFlag} {role : Role}
  {d : Directive} {ds : List Directive}

theorem ofLong_of_asks (h : LongAsks option d) : Directive.ofLong option = ([d], .options) := by
  cases h with
  | set flag => cases flag <;> decide
  | keep chars => rfl
  | defaultFile => decide
  | file name => rfl
  | @pattern role p hne =>
    have hlong := ofArgument_longValue role p
    rw [ofPatternValue_of_ne_nil role hne] at hlong
    cases role <;> exact hlong

theorem LongAsks.isProper (h : LongAsks option d) : d.IsProper := by
  cases h <;> trivial

theorem LongAsks.ne_nil (h : LongAsks option d) : option ≠ [] := by
  rintro rfl
  have hread : [Directive.misuse (.unknownLong [])] = [d] := congrArg Prod.fst (ofLong_of_asks h)
  obtain rfl := List.singleton_inj.mp hread
  exact h.isProper

theorem OptionAsks.isProper (h : OptionAsks ending d) : d.IsProper := by
  cases h with
  | long h => exact h.isProper
  | attached | joined => trivial

theorem ofLetters_of_asks (h : OptionAsks ending d) : Directive.ofLetters ending = ([d], .options) := by
  cases h with
  | @long option d h =>
    rw [← ofLong_of_asks h]
    cases option with
    | nil => exact absurd rfl h.ne_nil
    | cons b rest => rfl
  | @attached role p hne hhead =>
    rw [ofLetters_cons_role, attached_of_head hhead, ofPatternValue_of_ne_nil role hne]
  | @joined role p hne =>
    have hattached : Directive.attached (0x3D :: p) = p := rfl
    rw [ofLetters_cons_role, hattached, ofPatternValue_of_ne_nil role hne]

theorem ofLetters_nil : Directive.ofLetters [] = ([], .options) :=
  rfl

theorem ofLetters_dash : Directive.ofLetters [0x2D] = ([], .operands) :=
  rfl

theorem ofLetters_of_openEnds (h : ending ∈ role.openEnds) : Directive.ofLetters ending = ([], .value role) := by
  have hends : ∀ ending ∈ role.openEnds, Directive.ofLetters ending = ([], .value role) := by
    cases role <;> decide
  exact hends ending h

theorem ne_nil_of_openEnds (h : ending ∈ role.openEnds) : ending ≠ [] := by
  rintro rfl
  revert h
  cases role <;> decide

theorem OptionAsks.ne_nil (h : OptionAsks ending d) : ending ≠ [] := by
  cases h <;> exact List.cons_ne_nil _ _

theorem ofArgument_operand (h : argument = [] ∨ argument = [0x2D] ∨ argument.head? ≠ some 0x2D) :
    Directive.ofArgument argument = ([.operand argument], .options) := by
  unfold Directive.ofArgument
  split
  · simp at h
  · rfl

theorem ofArgumentsFrom_operands (operands : List Bytes) :
    Directive.ofArgumentsFrom .operands operands = operands.map .operand := by
  induction operands with
  | nil => rfl
  | cons operand rest ih => rw [Directive.ofArgumentsFrom, ih, List.map_cons]

theorem isProper_of_settingFlags : ∀ d ∈ settingFlags flags, d.IsProper := by
  intro d hd
  obtain ⟨f, -, rfl⟩ := List.mem_map.mp hd
  trivial

/-- A group is read as its flags and what stands behind them. -/
theorem ofArgumentsFrom_group {expecting : Expecting} (h : flags ≠ [] ∨ ending ≠ [])
    (hending : Directive.ofLetters ending = (ds, expecting)) (rest : List Bytes) :
    Directive.ofArgumentsFrom .options (group flags ending :: rest) =
      settingFlags flags ++ (ds ++ Directive.ofArgumentsFrom expecting rest) := by
  rw [ofArgumentsFrom_of_ofArgument (ofArgument_group h), hending, List.append_assoc]

theorem ofArgumentsFrom_of_operand (h : argument = [] ∨ argument = [0x2D] ∨ argument.head? ≠ some 0x2D)
    (rest : List Bytes) :
    Directive.ofArgumentsFrom .options (argument :: rest) =
      .operand argument :: Directive.ofArgumentsFrom .options rest :=
  ofArgumentsFrom_of_ofArgument (ofArgument_operand h) rest

/-- Arguments are read as the directives that they ask for. -/
theorem ofArgumentsFrom_of_asks (h : Asks arguments ds) : Directive.ofArgumentsFrom .options arguments = ds := by
  induction h with
  | nil => rfl
  | operand h _ ih => rw [ofArgumentsFrom_of_operand h, ih]
  | flags hne _ ih => rw [ofArgumentsFrom_group (.inl hne) ofLetters_nil, ih, List.nil_append]
  | option flags h _ ih => rw [ofArgumentsFrom_group (.inr h.ne_nil) (ofLetters_of_asks h), ih, List.singleton_append]
  | awaiting flags role p h _ ih =>
    rw [ofArgumentsFrom_group (.inr (ne_nil_of_openEnds h)) (ofLetters_of_openEnds h), List.nil_append,
      Directive.ofArgumentsFrom, ih]
  | last flags role h =>
    rw [ofArgumentsFrom_group (.inr (ne_nil_of_openEnds h)) (ofLetters_of_openEnds h), List.nil_append,
      Directive.ofArgumentsFrom]
  | ends flags operands =>
    rw [ofArgumentsFrom_group (.inr (List.cons_ne_nil _ _)) ofLetters_dash, ofArgumentsFrom_operands, List.nil_append]

/-- Arguments ask for proper directives only. -/
theorem Asks.isProper (h : Asks arguments ds) : ∀ d ∈ ds, d.IsProper := by
  induction h with
  | nil => exact List.forall_mem_nil _
  | operand _ _ ih => exact List.forall_mem_cons.mpr ⟨trivial, ih⟩
  | flags _ _ ih => exact List.forall_mem_append.mpr ⟨isProper_of_settingFlags, ih⟩
  | option flags h _ ih =>
    exact List.forall_mem_append.mpr ⟨isProper_of_settingFlags, List.forall_mem_cons.mpr ⟨h.isProper, ih⟩⟩
  | awaiting _ _ _ _ _ ih =>
    exact List.forall_mem_append.mpr ⟨isProper_of_settingFlags, List.forall_mem_cons.mpr ⟨trivial, ih⟩⟩
  | last =>
    exact List.forall_mem_append.mpr ⟨isProper_of_settingFlags, List.forall_mem_singleton.mpr trivial⟩
  | ends flags operands =>
    refine List.forall_mem_append.mpr ⟨isProper_of_settingFlags, fun d hd => ?_⟩
    obtain ⟨operand, -, rfl⟩ := List.mem_map.mp hd
    trivial

theorem asks_of_mem_plainLong :
    ∀ entry ∈ Directive.plainLong, entry.2.IsProper → LongAsks (Bytes.ascii entry.1) entry.2 := by
  simp only [Directive.plainLong, List.forall_mem_cons, List.not_mem_nil, false_imp_iff, implies_true, and_true]
  exact ⟨fun _ => .defaultFile, fun _ => .set .count, fun _ => .set .cultureInvariant, fun _ => .set .decompress,
    fun _ => .set .dos, fun _ => .set .escape, fun _ => .set .hasWildcards, False.elim, fun _ => .set .ignoreCase,
    fun _ => .set .invertMatch, fun _ => .set .regex, fun _ => .set .unescape, False.elim, fun _ => .set .wql⟩

/-- A long option without a value asks for what it is read as, unless it awaits a pattern or is improper. -/
theorem ofLongName_cases (name : Bytes) :
    (∃ role : Role, name = role.longName) ∨ ∃ d, Directive.ofLongName name = ([d], .options) ∧
      (d.IsProper → LongAsks name d) := by
  unfold Directive.ofLongName
  split
  · exact .inl ⟨.including, ‹_›⟩
  split
  · exact .inl ⟨.excluding, ‹_›⟩
  split
  · rename_i entry hfind
    obtain rfl : Bytes.ascii entry.1 = name := by simpa using List.find?_some hfind
    exact .inr ⟨entry.2, rfl, asks_of_mem_plainLong entry (List.mem_of_find?_eq_some hfind)⟩
  · exact .inr ⟨_, rfl, False.elim⟩

/-- A long option with a value asks for what it is read as, awaits a pattern, or is improper. -/
theorem ofLongValue_cases (name value : Bytes) :
    (∃ role : Role, name = role.longName ∧ value = []) ∨ ∃ d, Directive.ofLongValue name value = ([d], .options) ∧
      (d.IsProper → LongAsks (name ++ 0x3D :: value) d) := by
  unfold Directive.ofLongValue
  split
  · rename_i hname
    subst hname
    exact .inr ⟨_, rfl, fun _ => .file value⟩
  split
  · rename_i hname
    subst hname
    exact .inr ⟨_, rfl, fun _ => .keep value⟩
  by_cases hvalue : value = []
  · split
    · exact .inl ⟨.including, ‹_›, hvalue⟩
    split
    · exact .inl ⟨.excluding, ‹_›, hvalue⟩
    · exact .inr ⟨_, rfl, False.elim⟩
  · split
    · rename_i hname
      subst hname
      exact .inr ⟨_, ofPatternValue_of_ne_nil .including hvalue, fun _ => .pattern .including hvalue⟩
    split
    · rename_i hname
      subst hname
      exact .inr ⟨_, ofPatternValue_of_ne_nil .excluding hvalue, fun _ => .pattern .excluding hvalue⟩
    · exact .inr ⟨_, rfl, False.elim⟩

/-- A long option asks for what it is read as, unless it awaits a pattern or is improper. -/
theorem ofLong_cases (option : Bytes) :
    (∃ role : Role, 0x2D :: option ∈ role.openEnds) ∨ ∃ d, Directive.ofLong option = ([d], .options) ∧
      (d.IsProper → LongAsks option d) := by
  cases hvalue : option.dropWhile (· != 0x3D) with
  | nil =>
    rw [Directive.ofLong, hvalue]
    refine (ofLongName_cases option).imp_left ?_
    rintro ⟨role, rfl⟩
    exact ⟨role, by simp [Role.openEnds]⟩
  | cons b value =>
    obtain ⟨name, rfl, -, hlong⟩ := ofLong_of_dropWhile hvalue
    rw [hlong]
    refine (ofLongValue_cases name value).imp_left ?_
    rintro ⟨role, rfl, rfl⟩
    exact ⟨role, by simp [Role.openEnds]⟩

theorem ofLetter_cases (b : UInt8) :
    (∃ f : LetterFlag, b = f.letter) ∨ ¬ (Directive.ofLetter b).IsProper := by
  have hletters : ∀ b : UInt8, (∃ f ∈ [LetterFlag.count, .cultureInvariant, .decompress, .ignoreCase, .invertMatch],
      b = f.letter) ∨ ¬ (Directive.ofLetter b).IsProper := by
    intro b
    unfold Directive.ofLetter
    grind [LetterFlag.letter, Directive.IsProper]
  exact (hletters b).imp_left fun ⟨f, _, h⟩ => ⟨f, h⟩

/-- What can stand behind the letters of flags. -/
theorem ofLetters_cases (letters : Bytes) (h : ∀ d ∈ (Directive.ofLetters letters).1, d.IsProper) :
    ∃ (flags : List LetterFlag) (ending : Bytes), letters = flags.map LetterFlag.letter ++ ending ∧
      (ending = [] ∨ ending = [0x2D] ∨ (∃ d, OptionAsks ending d) ∨ ∃ role : Role, ending ∈ role.openEnds) := by
  induction letters with
  | nil => exact ⟨[], [], rfl, .inl rfl⟩
  | cons b rest ih =>
    by_cases hplain : isPlainLetter b = true
    · rw [ofLetters_cons_of_plain hplain, List.forall_mem_cons] at h
      obtain ⟨f, rfl⟩ := (ofLetter_cases b).resolve_right fun hnot => hnot h.1
      obtain ⟨flags, ending, rfl, hending⟩ := ih h.2
      exact ⟨f :: flags, ending, rfl, hending⟩
    refine ⟨[], b :: rest, rfl, .inr ?_⟩
    rcases isPlainLetter_eq_false_iff.mp (Bool.not_eq_true _ ▸ hplain) with rfl | ⟨role, rfl⟩
    · cases rest with
      | nil => exact .inl rfl
      | cons c rest =>
        have hlong : Directive.ofLetters (0x2D :: c :: rest) = Directive.ofLong (c :: rest) := rfl
        rcases ofLong_cases (c :: rest) with hopen | ⟨d, hread, hasks⟩
        · exact .inr (.inr hopen)
        · rw [hlong, hread, List.forall_mem_singleton] at h
          exact .inr (.inl ⟨d, .long (hasks h)⟩)
    · by_cases hattached : Directive.attached rest = []
      · refine .inr (.inr ⟨role, ?_⟩)
        rcases attached_eq_nil_iff.mp hattached with rfl | rfl <;> simp [Role.openEnds]
      by_cases hhead : rest.head? = some 0x3D
      · obtain ⟨p, rfl⟩ := List.head?_eq_some_iff.mp hhead
        exact .inr (.inl ⟨_, .joined role hattached⟩)
      · rw [attached_of_head hhead] at hattached
        exact .inr (.inl ⟨_, .attached role hattached hhead⟩)

/-- An argument is an operand, or holds a group of options. -/
theorem operand_or_group (argument : Bytes) :
    (argument = [] ∨ argument = [0x2D] ∨ argument.head? ≠ some 0x2D) ∨
      ∃ letters, letters ≠ [] ∧ argument = 0x2D :: letters := by
  cases argument with
  | nil => exact .inl (.inl rfl)
  | cons b rest =>
    by_cases hb : b = 0x2D
    · subst hb
      by_cases hrest : rest = []
      · exact .inl (.inr (.inl (by rw [hrest])))
      · exact .inr ⟨rest, hrest, rfl⟩
    · exact .inl (.inr (.inr (by simpa using hb)))

/-- Arguments that are read as proper directives ask for them. -/
theorem Asks.of_isProper (arguments : List Bytes)
    (h : ∀ d ∈ Directive.ofArgumentsFrom .options arguments, d.IsProper) :
    Asks arguments (Directive.ofArgumentsFrom .options arguments) := by
  -- an option that awaits its pattern takes two arguments at once, so the induction is on their number
  induction hlength : arguments.length using Nat.strong_induction_on generalizing arguments with
  | _ n ih =>
    subst hlength
    cases arguments with
    | nil => exact .nil
    | cons argument rest =>
      have hshorter : rest.length < (argument :: rest).length := Nat.lt_succ_self _
      rcases operand_or_group argument with hoperand | ⟨letters, hne, rfl⟩
      · rw [ofArgumentsFrom_of_operand hoperand] at h ⊢
        exact .operand hoperand (ih _ hshorter rest (List.forall_mem_cons.mp h).2 rfl)
      have hletters := ofArgumentsFrom_of_ofArgument (ofArgument_dash hne) rest
      have hfirst := h
      rw [hletters, List.forall_mem_append] at hfirst
      obtain ⟨flags, ending, rfl, hending⟩ := ofLetters_cases letters hfirst.1
      change ∀ d ∈ Directive.ofArgumentsFrom .options (group flags ending :: rest), d.IsProper at h
      change Asks (group flags ending :: rest) (Directive.ofArgumentsFrom .options (group flags ending :: rest))
      rcases hending with rfl | rfl | ⟨d, hd⟩ | ⟨role, hopen⟩
      · have hflags : flags ≠ [] := by simpa using hne
        rw [ofArgumentsFrom_group (.inl hflags) ofLetters_nil, List.nil_append, List.forall_mem_append] at h
        rw [ofArgumentsFrom_group (.inl hflags) ofLetters_nil, List.nil_append]
        exact .flags hflags (ih _ hshorter rest h.2 rfl)
      · rw [ofArgumentsFrom_group (.inr (List.cons_ne_nil _ _)) ofLetters_dash, List.nil_append,
          ofArgumentsFrom_operands]
        exact .ends flags rest
      · rw [ofArgumentsFrom_group (.inr hd.ne_nil) (ofLetters_of_asks hd)] at h ⊢
        exact .option flags hd (ih _ hshorter rest (List.forall_mem_append.mp (List.forall_mem_append.mp h).2).2 rfl)
      · rw [ofArgumentsFrom_group (.inr (ne_nil_of_openEnds hopen)) (ofLetters_of_openEnds hopen),
          List.nil_append] at h ⊢
        cases rest with
        | nil => exact .last flags role hopen
        | cons p rest =>
          have hrest := (List.forall_mem_cons.mp (List.forall_mem_append.mp h).2).2
          exact .awaiting flags role p hopen (ih _ (Nat.lt_trans (Nat.lt_succ_self _) hshorter) rest hrest rfl)

/-- The reader of arguments derives the command lines of the grammar, and no others. -/
theorem asks_iff : Asks arguments ds ↔
    Directive.ofArgumentsFrom .options arguments = ds ∧ ∀ d ∈ ds, d.IsProper := by
  constructor
  · exact fun h => ⟨ofArgumentsFrom_of_asks h, h.isProper⟩
  · rintro ⟨rfl, h⟩
    exact .of_isProper arguments h

end Reading

end NameGlob.Tool
