import NameGlob.Proofs.Filter.History
import NameGlob.Proofs.Lines.Pieces
import NameGlob.Proofs.Tool.Session
import NameGlob.Tool.Run

/-!
# Lines of inputs

The inputs of a run are its operands, or standard input when there are none. Each input has the lines of what can be
read of it, and is counted by a warning when it cannot be opened or not be read to its end. So what a run prints
depends on the lines of its inputs in their order, and its status on whether there was a line to print and whether
all inputs could be read.
-/

namespace NameGlob.Tool

/-- The operand that stands for standard input. -/
def dash : Bytes := [0x2D]

/-- The inputs of a run with these operands. -/
def inputs (operands : List Bytes) : List Bytes :=
  if operands = [] then [dash] else operands

/-- Tells whether an input cannot be opened, or not be read to its end. -/
def isTroubled (env : Environment) (input : Bytes) : Bool :=
  if input = dash then env.stdin.failure.isSome
  else
    match env.opened input with
    | .file delivery => delivery.failure.isSome
    | .directory => true
    | .refused _ => true

/-- The lines of an input that stands at place `k`. Standard input is read at its first place only. -/
def linesAt (env : Environment) (inputs : List Bytes) : Bytes × Nat → List Bytes
  | (input, k) =>
    if input = dash then (if k = inputs.idxOf dash then Bytes.lines env.stdin.bytes else [])
    else Bytes.lines (env.opened input).delivery.bytes

/-- The lines of the inputs in their order. -/
def linesRead (env : Environment) (inputs : List Bytes) : List Bytes :=
  inputs.zipIdx.flatMap (linesAt env inputs)

/-- No input is taken for a compressed file. -/
structure Uncompressed (env : Environment) (decompress : Bool) (inputs : List Bytes) : Prop where
  stdin : Reader.Plain decompress env.stdin.bytes
  file : ∀ input ∈ inputs, Reader.Plain decompress (env.opened input).delivery.bytes

/-- The run prints these lines, or their number, and its status tells whether there were any and whether an
input was in trouble. -/
structure Outcome.Selects (o : Outcome) (count : Bool) (lines : List Bytes) (troubled : Bool) : Prop where
  stdout : o.stdout =
    if count then Bytes.ascii (toString lines.length) ++ [0x0A] else lines.flatMap fun line => line ++ [0x0A]
  status : o.status = if troubled then 2 else if lines = [] then 1 else 0

/-- Where the names of an input are read from. -/
def sourceOf (input : Bytes) : Source :=
  if input = dash then .stdin else .path input

section Inputs

variable {env : Environment} {decompress : Bool}

theorem Delivery.lines_eq {d : Delivery} (h : Reader.Plain decompress d.bytes) (inflate : Inflater) :
    d.lines decompress inflate = ⟨Bytes.lines d.bytes, ⟨[], []⟩, d.failure.map fun _ => .failed⟩ :=
  LineReading.ofBytes_eq h _ inflate

namespace Input

/-- An input that is a file. -/
def ofFile (env : Environment) (decompress : Bool) (path : Bytes) : Input where
  source := .path path
  reading :=
    match env.opened path with
    | .refused e => .error e
    | found => .ok (found.delivery.lines decompress env.host.inflate)

theorem ofSources_dash (stdin : Delivery) (rest : List Source) :
    ofSources env decompress stdin (sourceOf dash :: rest) =
      ⟨.stdin, .ok (stdin.lines decompress env.host.inflate)⟩ :: ofSources env decompress stdin.spent rest :=
  rfl

theorem ofSources_file {input : Bytes} (h : input ≠ dash) (stdin : Delivery) (rest : List Source) :
    ofSources env decompress stdin (sourceOf input :: rest) =
      ofFile env decompress input :: ofSources env decompress stdin rest := by
  have hsource : sourceOf input = .path input := if_neg h
  rw [hsource]
  cases hopened : env.opened input <;> simp [ofSources, ofFile, hopened]

theorem names_ofFile {path : Bytes} (h : Reader.Plain decompress (env.opened path).delivery.bytes) :
    (ofFile env decompress path).names = Bytes.lines (env.opened path).delivery.bytes := by
  have hlines := congrArg LineReading.lines (Delivery.lines_eq h env.host.inflate)
  rw [ofFile]
  cases hopened : env.opened path with
  | refused e => exact Bytes.lines_nil.symm
  | file | directory =>
    rw [hopened] at hlines
    exact hlines

/-- What is left of standard input behind some inputs. -/
def stdinAfter (env : Environment) (before : List Bytes) : Delivery :=
  if dash ∈ before then env.stdin.spent else env.stdin

theorem stdinAfter_append_dash (env : Environment) (before : List Bytes) :
    stdinAfter env (before ++ [dash]) = (stdinAfter env before).spent := by
  rw [stdinAfter, if_pos (by simp), stdinAfter]
  split <;> rfl

theorem stdinAfter_append {input : Bytes} (h : input ≠ dash) (env : Environment) (before : List Bytes) :
    stdinAfter env (before ++ [input]) = stdinAfter env before := by
  simp [stdinAfter, Ne.symm h]

theorem lines_stdinAfter (env : Environment) (before rest : List Bytes) :
    Bytes.lines (stdinAfter env before).bytes = linesAt env (before ++ dash :: rest) (dash, before.length) := by
  by_cases h : dash ∈ before
  · have hlater : before.length ≠ (before ++ dash :: rest).idxOf dash := by
      rw [List.idxOf_append_of_mem h]
      exact Nat.ne_of_gt (List.idxOf_lt_length_of_mem h)
    rw [stdinAfter, if_pos h, linesAt, if_pos rfl, if_neg hlater, Delivery.spent, Bytes.lines_nil]
  · have hfirst : before.length = (before ++ dash :: rest).idxOf dash := by
      rw [List.idxOf_append_of_notMem h, List.idxOf_cons_self, Nat.add_zero]
    rw [stdinAfter, if_neg h, linesAt, if_pos rfl, if_pos hfirst]

theorem failure_stdinAfter (env : Environment) (before : List Bytes) :
    (stdinAfter env before).failure = env.stdin.failure := by
  unfold stdinAfter
  split <;> rfl

theorem plain_stdinAfter (h : Reader.Plain decompress env.stdin.bytes) (before : List Bytes) :
    Reader.Plain decompress (stdinAfter env before).bytes := by
  unfold stdinAfter
  split
  · exact Reader.plain_nil decompress
  · exact h

/-- The inputs of a run hold their lines, whatever inputs stand before them. -/
theorem flatMap_names_ofSources (before rest : List Bytes)
    (h : Uncompressed env decompress (before ++ rest)) :
    (ofSources env decompress (stdinAfter env before) (rest.map sourceOf)).flatMap names =
      (rest.zipIdx before.length).flatMap (linesAt env (before ++ rest)) := by
  -- `before` grows as the inputs are read, while the whole list stays what places are counted in
  induction rest generalizing before with
  | nil => rfl
  | cons input rest ih =>
    have hsplit : before ++ input :: rest = (before ++ [input]) ++ rest := by simp
    have hrest := ih (before ++ [input]) (hsplit ▸ h)
    rw [← hsplit, List.length_append, List.length_singleton] at hrest
    rw [List.map_cons, List.zipIdx_cons, List.flatMap_cons, ← hrest]
    by_cases hdash : input = dash
    · subst hdash
      have hnames := congrArg LineReading.lines
        (Delivery.lines_eq (plain_stdinAfter h.stdin before) env.host.inflate)
      rw [ofSources_dash, List.flatMap_cons, stdinAfter_append_dash, ← lines_stdinAfter env before rest]
      exact congrArg (· ++ _) hnames
    · have hnames := names_ofFile (h.file input (by simp))
      rw [ofSources_file hdash, List.flatMap_cons, hnames, linesAt, if_neg hdash,
        stdinAfter_append hdash]

theorem warning_stdin_eq_none_iff (env : Environment) {stdin : Delivery} (h : Reader.Plain decompress stdin.bytes) :
    (Input.mk .stdin (.ok (stdin.lines decompress env.host.inflate))).warning = none ↔ stdin.failure = none := by
  simp [warning, Delivery.lines_eq h]

theorem warning_ofFile_eq_none_iff {path : Bytes} (hdash : path ≠ dash)
    (h : Reader.Plain decompress (env.opened path).delivery.bytes) :
    (ofFile env decompress path).warning = none ↔ isTroubled env path = false := by
  rw [ofFile, isTroubled, if_neg hdash]
  cases hopened : env.opened path with
  | refused e => simp [warning]
  | file | directory =>
    rw [hopened] at h
    have hreading := Delivery.lines_eq h env.host.inflate
    simp only [Opened.delivery] at hreading
    simp [warning, Opened.delivery, hreading]

/-- There is no warning exactly when no input is in trouble. -/
theorem filterMap_warning_eq_nil_iff (before rest : List Bytes) (h : Uncompressed env decompress (before ++ rest)) :
    (ofSources env decompress (stdinAfter env before) (rest.map sourceOf)).filterMap warning = [] ↔
      rest.any (isTroubled env) = false := by
  induction rest generalizing before with
  | nil => simp [ofSources]
  | cons input rest ih =>
    have hsplit : before ++ input :: rest = (before ++ [input]) ++ rest := by simp
    have hrest := ih (before ++ [input]) (hsplit ▸ h)
    rw [List.map_cons, List.any_cons, Bool.or_eq_false_iff, ← hrest]
    by_cases hdash : input = dash
    · subst hdash
      have hfirst := warning_stdin_eq_none_iff env (plain_stdinAfter h.stdin before)
      rw [failure_stdinAfter] at hfirst
      rw [ofSources_dash, stdinAfter_append_dash, List.filterMap_eq_nil_iff, List.forall_mem_cons, hfirst,
        List.filterMap_eq_nil_iff]
      simp [isTroubled]
    · have hfirst := warning_ofFile_eq_none_iff hdash (h.file input (by simp))
      rw [ofSources_file hdash, stdinAfter_append hdash, List.filterMap_eq_nil_iff, List.forall_mem_cons, hfirst,
        List.filterMap_eq_nil_iff]

end Input

end Inputs

section Runs

variable {env : Environment} {arguments : List Bytes} {settings : Settings} {s : Session} {f : NameFilter}

theorem Settings.sources_eq (s : Settings) : s.sources = (inputs s.operands).map sourceOf := by
  unfold sources inputs
  simp only [List.isEmpty_iff]
  split
  · rfl
  · rfl

theorem linesRead_eq (h : Uncompressed env settings.decompress (inputs settings.operands)) :
    (Input.ofSources env settings.decompress env.stdin settings.sources).flatMap Input.names =
      linesRead env (inputs settings.operands) := by
  rw [Settings.sources_eq]
  exact Input.flatMap_names_ofSources [] _ h

theorem warnings_sources_eq_nil_iff (h : Uncompressed env settings.decompress (inputs settings.operands)) :
    (Input.ofSources env settings.decompress env.stdin settings.sources).filterMap Input.warning = [] ↔
      (inputs settings.operands).any (isTroubled env) = false := by
  rw [Settings.sources_eq]
  exact Input.filterMap_warning_eq_nil_iff [] _ h

theorem Session.settings_foldl_warn (s : Session) (texts : List Bytes) :
    (texts.foldl warn s).settings = s.settings := by
  induction texts generalizing s with
  | nil => rfl
  | cons text rest ih => exact ih _

theorem Session.warnings_foldl_warn (s : Session) (texts : List Bytes) :
    (texts.foldl warn s).warnings = s.warnings + texts.length := by
  induction texts generalizing s with
  | nil => rfl
  | cons text rest ih =>
    rw [List.foldl_cons, ih, List.length_cons]
    change s.warnings + 1 + rest.length = _
    omega

theorem Session.select_selects (hwarnings : s.warnings = 0)
    (hfilter : s.settings.filter env.host.locale = .ok f)
    (hplain : Uncompressed env s.settings.decompress (inputs s.settings.operands)) :
    (s.select env).Selects s.settings.count
      ((linesRead env (inputs s.settings.operands)).filter (s.settings.selects f))
      ((inputs s.settings.operands).any (isTroubled env)) := by
  have hiff := warnings_sources_eq_nil_iff hplain
  rw [← linesRead_eq hplain, List.filter_flatMap, select, hfilter]
  constructor
  · change (if Settings.count _ then _ else _) = _
    rw [settings_foldl_warn, Bytes.decimal_eq]
    rfl
  · change (if Session.warnings _ = 0 then _ else 2) = _
    rw [warnings_foldl_warn]
    cases htroubled : (inputs s.settings.operands).any (isTroubled env) with
    | false =>
      have hquiet := hiff.mpr htroubled
      simp [hquiet, hwarnings]
    | true =>
      have hwarned := mt hiff.mp (by simp [htroubled])
      simp [hwarned, hwarnings]

theorem run_eq_select (h : Session.ofArguments env arguments = .ok s) (hselect : s.settings.converts = false) :
    run env arguments = s.select env := by
  have htask : s.settings.task = .select := by
    simp only [Settings.converts, Bool.or_eq_false_iff] at hselect
    simp [Settings.task, hselect]
  unfold run
  rw [h]
  dsimp only
  rw [htask]

end Runs

end NameGlob.Tool
