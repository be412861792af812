import NameGlob.Proofs.Tool.Nesting

/-!
# Sessions that are one file ahead

A configuration file that was read before is left alone. So a session that has read one file more than another, and
agrees with it otherwise, carries out the same directives with the same effect, until the other one reads that file
as well.
-/

namespace NameGlob.Tool

/-- The sessions have the same settings and have reported the same. They may have looked at different files. -/
structure Session.SameEffect (s t : Session) : Prop where
  settings : s.settings = t.settings
  warnings : s.warnings = t.warnings
  reports : s.reports = t.reports

/-- Both computations end the run with the same status and the same output, or both succeed with results that are
related. -/
def EndsAlike {α : Type} (rel : α → α → Prop) : Except Outcome α → Except Outcome α → Prop
  | .ok a, .ok b => rel a b
  | .error o, .error o' => o.status = o'.status ∧ o.stdout = o'.stdout ∧ o.stderr = o'.stderr
  | _, _ => False

/-- The configuration files that were read when a computation ends, whichever way it does. -/
def filesRead {α : Type} (session : α → Session) : Except Outcome α → List LoadedFile
  | .ok a => (session a).loaded.reverse
  | .error o => o.loaded

section Alike

variable {α : Type} {rel rel' : α → α → Prop} {x y : Except Outcome α} {s t : Session}

theorem EndsAlike.mono (h : ∀ a b, rel a b → rel' a b) (hx : EndsAlike rel x y) : EndsAlike rel' x y := by
  cases x with
  | ok a =>
    cases y with
    | ok b => exact h a b hx
    | error o => exact hx
  | error o =>
    cases y with
    | ok b => exact hx
    | error o' => exact hx

theorem Session.SameEffect.endsAlike_stop (h : SameEffect s t) (status : Nat) (stdout : Bytes) :
    EndsAlike rel (.error (s.stop status stdout)) (.error (t.stop status stdout)) :=
  ⟨rfl, rfl, congrArg (·.reverse.flatten) h.reports⟩

theorem Session.SameEffect.report (h : SameEffect s t) (text : Bytes) : SameEffect (s.report text) (t.report text) :=
  ⟨h.settings, h.warnings, congrArg (text :: ·) h.reports⟩

end Alike

namespace Config

/-- The sessions have had the same effect, and `s` has read the same files as `t` and the file `path`. -/
structure Ahead (path : Bytes) (s t : Session) : Prop extends Session.SameEffect s t where
  unread : path ∉ t.loaded.map LoadedFile.path
  read_iff : ∀ p, p ∈ s.loaded.map LoadedFile.path ↔ p = path ∨ p ∈ t.loaded.map LoadedFile.path

/-- The computations end alike, unless the second one reads the file `path`. -/
def AlikeUntil (path : Bytes) {α : Type} (session : α → Session) (rel : α → α → Prop)
    (x y : Except Outcome α) : Prop :=
  path ∈ (filesRead session y).map LoadedFile.path ∨ EndsAlike rel x y

section Steps

variable {α β : Type} {session : α → Session} {session' : β → Session} {rel : α → α → Prop}
  {rel' : β → β → Prop} {x y : Except Outcome α} {next next' : α → Except Outcome β} {path : Bytes}
  {s t : Session}

theorem mem_filesRead_of_adds {before : List LoadedFile} (h : Adds session before x)
    (hmem : path ∈ before.map LoadedFile.path) : path ∈ (filesRead session x).map LoadedFile.path := by
  cases x with
  | ok a => exact (h.keeps.map LoadedFile.path).subset hmem
  | error o => exact (h.keeps.map LoadedFile.path).subset hmem

/-- Computations that end alike go on alike. A file that the second one has read stays read. -/
theorem AlikeUntil.bind (hx : AlikeUntil path session rel x y)
    (hadds : ∀ b, Adds session' (session b).loaded.reverse (next' b))
    (hnext : ∀ a b, rel a b → AlikeUntil path session' rel' (next a) (next' b)) :
    AlikeUntil path session' rel' (x >>= next) (y >>= next') := by
  rcases hx with hread | hends
  · left
    cases y with
    | ok b => exact mem_filesRead_of_adds (hadds b) hread
    | error o => exact hread
  · cases x with
    | ok a =>
      cases y with
      | ok b => exact hnext a b hends
      | error o => exact hends.elim
    | error o =>
      cases y with
      | ok b => exact hends.elim
      | error o' => exact .inr hends

theorem Ahead.with_settings (h : Ahead path s t) (change : Settings → Settings) :
    Ahead path { s with settings := change s.settings } { t with settings := change t.settings } :=
  ⟨⟨congrArg change h.settings, h.warnings, h.reports⟩, h.unread, h.read_iff⟩

theorem Ahead.report (h : Ahead path s t) (text : Bytes) : Ahead path (s.report text) (t.report text) :=
  ⟨h.toSameEffect.report text, h.unread, h.read_iff⟩

theorem Ahead.warn (h : Ahead path s t) :
    Ahead path { s with warnings := s.warnings + 1 } { t with warnings := t.warnings + 1 } :=
  ⟨⟨h.settings, congrArg (· + 1) h.warnings, h.reports⟩, h.unread, h.read_iff⟩

theorem Ahead.with_consulted (h : Ahead path s t) (sources sources' : List Source) :
    Ahead path { s with consulted := sources } { t with consulted := sources' } :=
  ⟨⟨h.settings, h.warnings, h.reports⟩, h.unread, h.read_iff⟩

/-- Both sessions read one more file. -/
theorem Ahead.with_file (h : Ahead path s t) {f : LoadedFile} (hf : f.path ≠ path) :
    Ahead path { s with loaded := f :: s.loaded } { t with loaded := f :: t.loaded } := by
  refine ⟨⟨h.settings, h.warnings, h.reports⟩, ?_, fun p => ?_⟩
  · rw [List.map_cons, List.mem_cons, not_or]
    exact ⟨Ne.symm hf, h.unread⟩
  · rw [List.map_cons, List.map_cons, List.mem_cons, List.mem_cons, h.read_iff p, or_left_comm]

end Steps

section Lines

variable {carryOut : List Directive → Session → Except Outcome Session} {path : Bytes} {s t : Session}

/-- The same lines have the same effect on a session that is one file ahead, and they are as faulty. -/
theorem alike_performLines
    (hcarryOut : ∀ ds s t, Ahead path s t → AlikeUntil path id (Ahead path) (carryOut ds s) (carryOut ds t))
    (hadds : ∀ ds s, Adds id s.loaded.reverse (carryOut ds s)) (here : Bytes) (number : Nat)
    (lines : List Bytes) (h : Ahead path s t) :
    AlikeUntil path Prod.snd (fun a b => a.1 = b.1 ∧ Ahead path a.2 b.2)
      (performLines carryOut here number lines s) (performLines carryOut here number lines t) := by
  induction lines generalizing number s t with
  | nil => exact .inr ⟨rfl, h⟩
  | cons line rest ih =>
    rw [performLines, performLines]
    dsimp only
    split
    · refine (hcarryOut _ s t h).bind (fun b => ?_) fun a b hab => ?_
      · split
        · exact (adds_performLines hadds here (number + 1) rest (b.report _)).bind fun _ => Step.refl _
        · exact adds_performLines hadds here (number + 1) rest b
      · rw [h.warnings, hab.warnings]
        split
        · exact (ih (number + 1) (hab.report _)).bind (fun _ => Step.refl _) fun _ _ hlast => .inr ⟨rfl, hlast.2⟩
        · exact ih (number + 1) hab
    · exact ih (number + 1) h

variable {env : Environment} {name : Bytes}

theorem alike_close {here : Bytes} {failure : Option ReadFailure} {a b : Bool × Session} (hfaulty : a.1 = b.1)
    (h : Ahead path a.2 b.2) : AlikeUntil path id (Ahead path) (close here failure a) (close here failure b) := by
  right
  unfold close
  rw [hfaulty]
  split
  · exact (h.toSameEffect.report _).endsAlike_stop 2 []
  · split
    · exact h.toSameEffect.endsAlike_stop 2 []
    · exact h

/-- A file is read by both sessions or by none, unless it is the one that the second session has not read. -/
theorem alike_load
    (hcarryOut : ∀ ds s t, Ahead path s t → AlikeUntil path id (Ahead path) (carryOut ds s) (carryOut ds t))
    (hadds : ∀ ds s, Adds id s.loaded.reverse (carryOut ds s)) (depth : Nat) (name : Bytes)
    (h : Ahead path s t) :
    AlikeUntil path id (Ahead path) (load env depth carryOut name s) (load env depth carryOut name t) := by
  obtain ⟨sources, hs⟩ := openOption_eq env name s
  obtain ⟨sources', ht⟩ := openOption_eq env name t
  have hopened := h.with_consulted sources sources'
  cases hresult : (openOption env name {}).1 with
  | error e =>
    rw [hresult] at hs ht
    rw [load_of_refused hs, load_of_refused ht]
    right
    split
    · exact hopened
    · exact (hopened.toSameEffect.report _).endsAlike_stop 2 []
  | ok file =>
    obtain ⟨here, found⟩ := file
    rw [hresult] at hs ht
    by_cases hread : here ∈ t.loaded.map LoadedFile.path
    · rw [load_of_read hs ((h.read_iff here).mpr (.inr hread)), load_of_read ht hread]
      exact .inr hopened
    by_cases hpath : here = path
    · -- only the second session reads the file
      subst hpath
      exact .inl (mem_filesRead_of_adds (adds_load_of_new hadds ht hread) (by simp))
    · have hread' : here ∉ s.loaded.map LoadedFile.path := by
        rw [h.read_iff here, not_or]
        exact ⟨hpath, hread⟩
      rw [load_of_new hs hread', load_of_new ht hread]
      exact (alike_performLines hcarryOut hadds here 1 _ (hopened.with_file hpath)).bind (adds_close here _)
        fun a b hab => alike_close hab.1 hab.2

end Lines

end Config

section Directives

open Config

variable {env : Environment} {loadConfig : Bytes → Session → Except Outcome Session} {path : Bytes}
  {s t : Session}

theorem Session.alike_performOne (inConfig : Bool)
    (hload : ∀ name s t, Ahead path s t →
      AlikeUntil path id (Ahead path) (loadConfig name s) (loadConfig name t))
    (d : Directive) (h : Ahead path s t) :
    AlikeUntil path id (Ahead path) (performOne env inConfig loadConfig s d)
      (performOne env inConfig loadConfig t d) := by
  cases d with
  | config name => exact hload name s t h
  | set flag => exact .inr (h.with_settings (·.set flag))
  | keep chars => exact .inr (h.with_settings fun settings => { settings with escape := true, keptChars := chars })
  | pattern role value => exact .inr (h.with_settings (·.addPattern value role))
  | operand value =>
    exact .inr (h.with_settings fun settings => { settings with operands := settings.operands ++ [value] })
  | help => exact .inr (h.toSameEffect.endsAlike_stop 0 helpText)
  | version => exact .inr (h.toSameEffect.endsAlike_stop 0 (versionText _))
  | misuse e =>
    cases inConfig with
    | true => exact .inr (h.report e.message).warn
    | false => exact .inr ((h.toSameEffect.report e.message).endsAlike_stop 2 [])

/-- The same directives have the same effect on a session that is one file ahead. -/
theorem Session.alike_perform (env : Environment) (inConfig : Bool)
    (hload : ∀ name s t, Ahead path s t →
      AlikeUntil path id (Ahead path) (loadConfig name s) (loadConfig name t))
    (hadds : ∀ name s, Adds id s.loaded.reverse (loadConfig name s)) (ds : List Directive) (h : Ahead path s t) :
    AlikeUntil path id (Ahead path) (perform env inConfig loadConfig ds s) (perform env inConfig loadConfig ds t) := by
  induction ds generalizing s t with
  | nil => exact .inr h
  | cons d rest ih =>
    rw [perform_cons, perform_cons]
    exact (alike_performOne inConfig hload d h).bind (adds_perform inConfig hadds rest) fun _ _ => ih

theorem Config.alike_loadNested {room : Nat} (hroom : room ≤ 2) (name : Bytes) (h : Ahead path s t) :
    AlikeUntil path id (Ahead path) (loadNested env room name s) (loadNested env room name t) := by
  induction room generalizing name s t with
  | zero => exact .inr (h.report UsageError.recursiveConfig.message).warn
  | succ room ih =>
    have hrest : room ≤ 2 := Nat.le_of_succ_le hroom
    refine alike_load (fun ds s t => ?_) (Session.adds_perform true (adds_loadNested hrest)) _ name h
    exact Session.alike_perform env true (fun name s t => ih hrest name) (adds_loadNested hrest) ds

end Directives

end NameGlob.Tool
