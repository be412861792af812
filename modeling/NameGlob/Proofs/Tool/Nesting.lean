import Mathlib.Data.List.Nodup
import NameGlob.Proofs.Tool.Session
import NameGlob.Tool.Run

/-!
# Nested configuration files

A configuration file may name itself, or files that name it. Loading comes to an end all the same: an option
that is met while two files are open is refused, so nothing is read below the second one. A path is recorded
before the lines of its file are carried out, and a recorded path is not read again.

## Main definitions

- `Config.Ends` — loading by the number of open files alone, without a bound on the recursion
- `Config.Step` — what carrying out options adds to the files read
- `Config.Orderly` — every path is read once, and none as the third of three open files
-/

namespace NameGlob.Tool

namespace Config

/-- The option to read a configuration file, met while `opened` of them are open, is carried out to its end.
It is refused while two are open, and otherwise the file is read as one more open file. Its lines may hold the
option again. -/
inductive Ends (env : Environment) : Nat → Bytes → Session → Except Outcome Session → Prop
  | refused {opened : Nat} (name : Bytes) (s : Session) (hdeep : 2 ≤ opened) :
      Ends env opened name s (s.misuse true .recursiveConfig)
  | followed {opened : Nat} (name : Bytes) (s : Session) (hroom : opened < 2)
      (within : Bytes → Session → Except Outcome Session)
      (hwithin : ∀ name s, Ends env (opened + 1) name s (within name s)) :
      Ends env opened name s (load env (opened + 1) (Session.perform env true within) name s)

variable {env : Environment} {opened : Nat} {name : Bytes} {s : Session} {r : Except Outcome Session}

theorem loadNested_of_deep (hdeep : 2 ≤ opened) (name : Bytes) (s : Session) :
    loadNested env (2 - opened) name s = s.misuse true .recursiveConfig := by
  rw [Nat.sub_eq_zero_of_le hdeep, loadNested]

theorem loadNested_of_room (hroom : opened < 2) (name : Bytes) (s : Session) :
    loadNested env (2 - opened) name s =
      load env (opened + 1) (Session.perform env true (loadNested env (2 - (opened + 1)))) name s := by
  have hsucc : 2 - opened = (2 - (opened + 1)) + 1 := by omega
  have hdepth : maxDepth - (2 - (opened + 1)) = opened + 1 := by
    rw [maxDepth]
    omega
  rw [hsucc, loadNested, hdepth]

theorem ends_loadNested (env : Environment) (opened : Nat) (name : Bytes) (s : Session) :
    Ends env opened name s (loadNested env (2 - opened) name s) := by
  -- the room for further open files decreases from a file to the files that it names
  induction hroom : 2 - opened generalizing opened name s with
  | zero => exact .refused name s (Nat.le_of_sub_eq_zero hroom)
  | succ room ih =>
    have hlt : opened < 2 := by omega
    rw [← hroom, loadNested_of_room hlt]
    refine .followed name s hlt _ fun name s => ?_
    have hrest : 2 - (opened + 1) = room := by omega
    rw [hrest]
    exact ih (opened + 1) name s hrest

/-- Loading always comes to an end, whatever the files hold, and it has one result. -/
theorem ends_iff : Ends env opened name s r ↔ r = loadNested env (2 - opened) name s := by
  constructor
  · intro h
    induction h with
    | refused name s hdeep => exact (loadNested_of_deep hdeep name s).symm
    | followed name s hroom within _ ih =>
      have hsame : within = loadNested env _ := funext fun name => funext fun s => ih name s
      rw [loadNested_of_room hroom, hsame]
  · rintro rfl
    exact ends_loadNested env opened name s

end Config

/-- What a directive asks for where no further configuration file may be opened. -/
def Directive.unfollowed : Directive → Directive
  | .config _ => .misuse .recursiveConfig
  | d => d

/-- While two files are open, directives are carried out as if each that names a file were a misuse. No way to
load files makes a difference to them. -/
theorem Session.perform_innermost {env : Environment} {within : Bytes → Session → Except Outcome Session}
    (hwithin : ∀ name s, Config.Ends env 2 name s (within name s))
    (loadConfig : Bytes → Session → Except Outcome Session) (ds : List Directive) (s : Session) :
    perform env true within ds s = perform env true loadConfig (ds.map Directive.unfollowed) s := by
  have hone : ∀ s d, performOne env true within s d = performOne env true loadConfig s d.unfollowed := by
    intro s d
    cases d with
    | config name =>
      have hwithin := Config.ends_iff.mp (hwithin name s)
      exact hwithin.trans (Config.loadNested_of_deep (Nat.le_refl _) name s)
    | _ => rfl
  rw [perform, perform, List.foldlM_map]
  congr 1
  funext s d
  exact hone s d

namespace Config

/-- What opening the file of an option gives, whose name may be empty. -/
def openOption (env : Environment) (name : Bytes) (s : Session) :
    Except OpenError (Bytes × Opened) × Session :=
  openNamed env (if name.isEmpty then defaultName else name) s

/-- What is left to do behind the lines of a configuration file. The run ends when the file cannot be read, or
when one of its lines gave a warning. -/
def close (path : Bytes) (failure : Option ReadFailure) (r : Bool × Session) : Except Outcome Session :=
  match failure with
  | some failure =>
    .error (r.2.fail (Bytes.ascii "error while reading " ++ path ++ Bytes.ascii ": " ++ failure.message))
  | none => if r.1 then .error (r.2.stop 2 []) else .ok r.2

/-- No path is read twice, and every file is read as the first or the second open file. -/
structure Orderly (files : List LoadedFile) : Prop where
  once : (files.map LoadedFile.path).Nodup
  shallow : ∀ f ∈ files, 1 ≤ f.depth ∧ f.depth ≤ 2

/-- Files are added to those that were read before, and they stay in order. -/
structure Step (before after : List LoadedFile) : Prop where
  keeps : before <+: after
  orderly : Orderly before → Orderly after

/-- However carrying out options ends, it adds files to those that were read before. -/
def Adds {α : Type} (session : α → Session) (before : List LoadedFile) : Except Outcome α → Prop
  | .ok a => Step before (session a).loaded.reverse
  | .error o => Step before o.loaded

section Steps

variable {before middle after : List LoadedFile}

theorem orderly_nil : Orderly [] :=
  ⟨List.nodup_nil, fun _ hf => absurd hf List.not_mem_nil⟩

theorem Step.refl (files : List LoadedFile) : Step files files :=
  ⟨List.prefix_rfl, id⟩

theorem Step.trans (h : Step before middle) (h' : Step middle after) : Step before after :=
  ⟨h.keeps.trans h'.keeps, h'.orderly ∘ h.orderly⟩

theorem step_new {f : LoadedFile} (hnew : f.path ∉ before.map LoadedFile.path)
    (hdepth : 1 ≤ f.depth ∧ f.depth ≤ 2) : Step before (before ++ [f]) where
  keeps := List.prefix_append _ _
  orderly h := by
    constructor
    · rw [List.map_append, List.map_singleton, ← List.concat_eq_append]
      exact List.Nodup.concat hnew h.once
    · intro g hg
      rcases List.mem_append.mp hg with hbefore | hlast
      · exact h.shallow g hbefore
      · obtain rfl := List.mem_singleton.mp hlast
        exact hdepth

variable {α β : Type} {session : α → Session} {session' : β → Session} {x : Except Outcome α}
  {next : α → Except Outcome β}

theorem Adds.of_step (h : Step before middle) (hx : Adds session middle x) : Adds session before x := by
  cases x with
  | error o => exact h.trans hx
  | ok a => exact h.trans hx

theorem Adds.bind (hx : Adds session before x)
    (hnext : ∀ a, Adds session' (session a).loaded.reverse (next a)) : Adds session' before (x >>= next) := by
  cases x with
  | error o => exact hx
  | ok a => exact .of_step hx (hnext a)

end Steps

section Loading

variable {env : Environment} {carryOut : List Directive → Session → Except Outcome Session}
  {loadConfig : Bytes → Session → Except Outcome Session} {name path : Bytes} {found : Opened}
  {opened : Nat} {s s' : Session} {r : Except Outcome Session}

/-- Opening a file does not depend on the session, which only notes what was tried. -/
theorem openOption_eq (env : Environment) (name : Bytes) (s : Session) :
    ∃ sources, openOption env name s = ((openOption env name {}).1, { s with consulted := sources }) := by
  unfold openOption openNamed
  dsimp only
  split
  · split
    · exact ⟨_, rfl⟩
    · split <;> exact ⟨_, rfl⟩
  · exact ⟨_, rfl⟩

theorem exists_consulted_of_open {result : Except OpenError (Bytes × Opened)}
    (hopen : openOption env name s = (result, s')) : ∃ sources, s' = { s with consulted := sources } := by
  obtain ⟨sources, heq⟩ := openOption_eq env name s
  exact ⟨sources, (Prod.mk.inj (hopen.symm.trans heq)).2⟩

theorem loaded_of_open {result : Except OpenError (Bytes × Opened)}
    (hopen : openOption env name s = (result, s')) : s'.loaded = s.loaded := by
  obtain ⟨sources, rfl⟩ := exists_consulted_of_open hopen
  rfl

theorem adds_performLines (hcarryOut : ∀ ds s, Adds id s.loaded.reverse (carryOut ds s)) (path : Bytes)
    (number : Nat) (lines : List Bytes) (s : Session) :
    Adds Prod.snd s.loaded.reverse (performLines carryOut path number lines s) := by
  induction lines generalizing number s with
  | nil => exact Step.refl _
  | cons line rest ih =>
    rw [performLines]
    dsimp only
    split
    · refine (hcarryOut _ s).bind fun after => ?_
      split
      · apply Adds.bind (ih (number + 1) (after.report _))
        intro last
        exact Step.refl _
      · exact ih (number + 1) after
    · exact ih (number + 1) s

theorem any_path_iff : (s.loaded.any (·.path == path)) = true ↔ path ∈ s.loaded.map LoadedFile.path := by
  simp

/-- A file that cannot be opened is an error, unless it is the default one. -/
theorem load_of_refused {depth : Nat} {e : OpenError} (hopen : openOption env name s = (.error e, s')) :
    load env depth carryOut name s =
      if name.isEmpty then .ok s'
      else .error (s'.fail (Bytes.ascii "option --config: cannot read " ++ name ++ Bytes.ascii ": "
        ++ e.message)) := by
  rw [load]
  dsimp only
  rw [← openOption, hopen]
  dsimp only
  split
  · rfl
  · rfl

/-- A file that was read before is not read again, so an option that names it does nothing. -/
theorem load_of_read {depth : Nat} (hopen : openOption env name s = (.ok (path, found), s'))
    (hread : path ∈ s.loaded.map LoadedFile.path) : load env depth carryOut name s = .ok s' := by
  have hread' : s'.loaded.any (·.path == path) = true := by
    rwa [any_path_iff, loaded_of_open hopen]
  rw [load]
  dsimp only
  rw [← openOption, hopen]
  dsimp only
  rw [if_pos hread']

/-- A file that was not read before is recorded, and then its lines are carried out. -/
theorem load_of_new {depth : Nat} (hopen : openOption env name s = (.ok (path, found), s'))
    (hnew : path ∉ s.loaded.map LoadedFile.path) :
    load env depth carryOut name s =
      performLines carryOut path 1 (found.delivery.lines false env.host.inflate).lines
        { s' with loaded := ⟨path, depth⟩ :: s'.loaded } >>= close path found.delivery.failure := by
  have hnew' : ¬ s'.loaded.any (·.path == path) = true := by
    rwa [any_path_iff, loaded_of_open hopen]
  rw [load]
  dsimp only
  rw [← openOption, hopen]
  dsimp only
  rw [if_neg hnew']
  rfl

theorem eq_of_close {failure : Option ReadFailure} {r : Bool × Session}
    (h : close path failure r = .ok s') : r.2 = s' := by
  unfold close at h
  split at h
  · cases h
  · split at h
    · cases h
    · exact Except.ok.inj h

theorem adds_close (path : Bytes) (failure : Option ReadFailure) (r : Bool × Session) :
    Adds id r.2.loaded.reverse (close path failure r) := by
  unfold close
  split
  · exact Step.refl _
  · split
    · exact Step.refl _
    · exact Step.refl _

theorem adds_load_of_new {depth : Nat} (hcarryOut : ∀ ds s, Adds id s.loaded.reverse (carryOut ds s))
    (hopen : openOption env name s = (.ok (path, found), s'))
    (hnew : path ∉ s.loaded.map LoadedFile.path) :
    Adds id (s.loaded.reverse ++ [⟨path, depth⟩]) (load env depth carryOut name s) := by
  let reading : Session := { s' with loaded := ⟨path, depth⟩ :: s'.loaded }
  have hreading : s.loaded.reverse ++ [⟨path, depth⟩] = reading.loaded.reverse := by
    rw [List.reverse_cons, loaded_of_open hopen]
  rw [load_of_new hopen hnew, hreading]
  exact (adds_performLines hcarryOut path 1 _ reading).bind (adds_close path _)

theorem adds_load {depth : Nat} (hcarryOut : ∀ ds s, Adds id s.loaded.reverse (carryOut ds s))
    (hdepth : 1 ≤ depth ∧ depth ≤ 2) (name : Bytes) (s : Session) :
    Adds id s.loaded.reverse (load env depth carryOut name s) := by
  cases hopen : openOption env name s with
  | mk result s' =>
    cases result with
    | error e =>
      rw [load_of_refused hopen, ← loaded_of_open hopen]
      split
      · exact Step.refl _
      · exact Step.refl _
    | ok file =>
      obtain ⟨path, found⟩ := file
      by_cases hread : path ∈ s.loaded.map LoadedFile.path
      · rw [load_of_read hopen hread, ← loaded_of_open hopen]
        exact Step.refl _
      · have hnew : path ∉ s.loaded.reverse.map LoadedFile.path := by
          rwa [List.map_reverse, List.mem_reverse]
        exact .of_step (step_new hnew hdepth) (adds_load_of_new hcarryOut hopen hread)

end Loading

end Config

section Options

open Config

variable {env : Environment} {loadConfig : Bytes → Session → Except Outcome Session}

theorem Session.adds_performOne (inConfig : Bool)
    (hload : ∀ name s, Adds id s.loaded.reverse (loadConfig name s)) (s : Session) (d : Directive) :
    Adds id s.loaded.reverse (performOne env inConfig loadConfig s d) := by
  cases d with
  | config name => exact hload name s
  | misuse e => cases inConfig <;> exact Step.refl _
  | _ => exact Step.refl _

theorem Session.adds_perform (inConfig : Bool)
    (hload : ∀ name s, Adds id s.loaded.reverse (loadConfig name s)) (ds : List Directive) (s : Session) :
    Adds id s.loaded.reverse (perform env inConfig loadConfig ds s) := by
  induction ds generalizing s with
  | nil => exact Step.refl _
  | cons d rest ih =>
    rw [perform_cons]
    exact (adds_performOne inConfig hload s d).bind ih

theorem Config.adds_loadNested {room : Nat} (hroom : room ≤ 2) (name : Bytes) (s : Session) :
    Adds id s.loaded.reverse (loadNested env room name s) := by
  induction room generalizing name s with
  | zero => exact Step.refl _
  | succ room ih =>
    refine adds_load (fun ds s => Session.adds_perform true (ih (by omega)) ds s) ?_ name s
    rw [maxDepth]
    omega

theorem Session.adds_ofArguments (env : Environment) (arguments : List Bytes) :
    Adds id [] (ofArguments env arguments) := by
  rw [ofArguments]
  refine (adds_perform (s := {}) false (adds_loadNested (Nat.le_refl _)) _).bind fun s => ?_
  dsimp only
  split
  · exact Step.refl _
  · exact Step.refl _

theorem Session.loaded_foldl_warn (s : Session) (texts : List Bytes) :
    (texts.foldl warn s).loaded = s.loaded := by
  induction texts generalizing s with
  | nil => rfl
  | cons text rest ih => exact ih _

theorem Session.loaded_select (env : Environment) (s : Session) :
    (s.select env).loaded = s.loaded.reverse := by
  rw [select]
  split
  · rfl
  · show List.reverse (Session.loaded _) = _
    rw [loaded_foldl_warn]

theorem Session.loaded_convert (env : Environment) (s : Session) (form : Form) :
    (s.convert env form).loaded = s.loaded.reverse := by
  rw [convert]
  dsimp only
  split
  · rfl
  · rfl

/-- A run reads no configuration file after its options. -/
theorem step_run (env : Environment) (arguments : List Bytes) : Step [] (run env arguments).loaded := by
  have hoptions := Session.adds_ofArguments env arguments
  rw [run]
  cases hs : Session.ofArguments env arguments with
  | error o =>
    rw [hs] at hoptions
    exact hoptions
  | ok s =>
    rw [hs] at hoptions
    dsimp only
    split
    · rw [Session.loaded_select]
      exact hoptions
    · exact hoptions
    · rw [Session.loaded_convert]
      exact hoptions

/-- Whatever configuration files hold, carrying out an option that names one comes to an end, with one result,
which is the one that a run computes. While two files are open such an option is reported and names nothing.
Otherwise a file that was read before is left alone, and any other is recorded before what its options add.
So a run reads every path once, and no more than two files deep. -/
theorem run_reads_configuration_once (env : Environment) (arguments : List Bytes) :
    (∀ opened name s r, Ends env opened name s r ↔ r = loadNested env (2 - opened) name s) ∧
    (∀ name s, Ends env 2 name s
      (.ok { s.report UsageError.recursiveConfig.message with warnings := s.warnings + 1 })) ∧
    (∀ within, (∀ name s, Ends env 2 name s (within name s)) → ∀ loadConfig ds s,
      Session.perform env true within ds s =
        Session.perform env true loadConfig (ds.map Directive.unfollowed) s) ∧
    (∀ opened name s r path found s', opened < 2 → Ends env opened name s r →
      openOption env name s = (.ok (path, found), s') →
      (path ∈ s.loaded.map LoadedFile.path → r = .ok s') ∧
      (path ∉ s.loaded.map LoadedFile.path → Adds id (s.loaded.reverse ++ [⟨path, opened + 1⟩]) r)) ∧
    Orderly (run env arguments).loaded := by
  refine ⟨fun _ _ _ _ => ends_iff, fun name s => .refused name s (Nat.le_refl _),
    fun _ hwithin => Session.perform_innermost hwithin, ?_, (step_run env arguments).orderly orderly_nil⟩
  rintro opened name s r path found s' hroom hends hopen
  rw [ends_iff.mp hends, loadNested_of_room hroom]
  refine ⟨load_of_read hopen, adds_load_of_new (fun ds s => ?_) hopen⟩
  exact Session.adds_perform true (adds_loadNested (Nat.sub_le _ _)) ds s

/-- Two files that name each other and themselves. The second one is read from the first, and once only. -/
theorem run_reads_configuration_once_cycle :
    let a := Bytes.ascii "a"
    let b := Bytes.ascii "b"
    let env : Environment :=
      { home := none
        stdin := ⟨[], none⟩
        opened := fun path =>
          if path = a then .file (Bytes.ascii "config=b\nconfig=a\nconfig\n")
          else if path = b then .file (Bytes.ascii "config=a\nconfig=b\ncount\n")
          else .refused .missing }
    let s : Session := { loaded := [⟨a, 1⟩] }
    let o := run env (["--config=a", "--config=b"].map Bytes.ascii)
    1 < 2 ∧ openOption env b s = (.ok (b, env.opened b), s.consult b) ∧
      Adds id [⟨a, 1⟩, ⟨b, 2⟩] (loadNested env 1 b s) ∧
      Orderly o.loaded ∧ o.loaded = [⟨a, 1⟩, ⟨b, 2⟩] ∧ o.status = 2 := by
  intro a b env s o
  have hopen : openOption env b s = (.ok (b, env.opened b), s.consult b) := by decide +kernel
  obtain ⟨hends, -, -, hload, hordered⟩ :=
    run_reads_configuration_once env (["--config=a", "--config=b"].map Bytes.ascii)
  have hadds := (hload 1 b s _ b _ _ (by decide) ((hends 1 b s _).mpr rfl) hopen).2 (by decide +kernel)
  exact ⟨by decide, hopen, hadds, hordered, by decide +kernel, by decide +kernel⟩

end Options

end NameGlob.Tool
