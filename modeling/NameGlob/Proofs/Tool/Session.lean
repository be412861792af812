import NameGlob.Tool.Config

/-!
# Sessions after their options

A misuse on the command line ends the run, and so does a configuration file with a misuse once it is read. So
a session that survives its options has given no warning.
-/

namespace NameGlob.Tool

theorem exists_ok_of_bind {ε α β : Type} {x : Except ε α} {next : α → Except ε β} {r : β}
    (h : x >>= next = .ok r) : ∃ a, x = .ok a ∧ next a = .ok r := by
  cases x with
  | error e => cases h
  | ok a => exact ⟨a, rfl, h⟩

theorem Session.perform_cons {env : Environment} (inConfig : Bool)
    (loadConfig : Bytes → Session → Except Outcome Session) (d : Directive) (ds : List Directive) (s : Session) :
    perform env inConfig loadConfig (d :: ds) s =
      performOne env inConfig loadConfig s d >>= perform env inConfig loadConfig ds :=
  List.foldlM_cons

section Warnings

variable {env : Environment} {carryOut : List Directive → Session → Except Outcome Session}
  {loadConfig : Bytes → Session → Except Outcome Session} {s s' : Session}

/-- Lines without a misuse give no warning. -/
theorem Config.warnings_performLines {path : Bytes} {number : Nat} {lines : List Bytes}
    (h : performLines carryOut path number lines s = .ok (false, s')) : s'.warnings ≤ s.warnings := by
  induction lines generalizing number s with
  | nil =>
    obtain ⟨-, rfl⟩ := Prod.mk.inj (Except.ok.inj h)
    exact Nat.le_refl _
  | cons line rest ih =>
    rw [performLines] at h
    split at h
    · obtain ⟨after, -, hrest⟩ := exists_ok_of_bind h
      split at hrest
      · obtain ⟨_, -, hfaulty⟩ := exists_ok_of_bind hrest
        simp at hfaulty
      · rename_i hnone
        exact Nat.le_trans (ih hrest) (Nat.le_of_not_lt hnone)
    · exact ih h

theorem Config.warnings_openNamed (env : Environment) (name : Bytes) (s : Session) :
    (openNamed env name s).2.warnings = s.warnings := by
  unfold openNamed
  grind [Session.consult]

/-- A misuse in a configuration file is counted, but such a file ends the run once it is read. -/
theorem Config.warnings_load {depth : Nat} {name : Bytes}
    (h : load env depth carryOut name s = .ok s') : s'.warnings ≤ s.warnings := by
  have hopen := warnings_openNamed env (if name.isEmpty then defaultName else name) s
  rw [← hopen]
  unfold load at h
  dsimp only at h
  split at h
  · rename_i hopened
    rw [hopened]
    split at h
    · exact Nat.le_of_eq (congrArg Session.warnings (Except.ok.inj h).symm)
    · simp at h
  · rename_i path found s₁ hopened
    rw [hopened]
    split at h
    · exact Nat.le_of_eq (congrArg Session.warnings (Except.ok.inj h).symm)
    · obtain ⟨⟨faulty, s₂⟩, hlines, hrest⟩ := exists_ok_of_bind h
      dsimp only at hrest
      split at hrest
      · simp at hrest
      · split at hrest
        · simp at hrest
        · rename_i hfaulty
          obtain rfl := Except.ok.inj hrest
          rw [Bool.not_eq_true] at hfaulty
          rw [hfaulty] at hlines
          have hquiet := warnings_performLines hlines
          exact hquiet

theorem Session.warnings_performOne {d : Directive}
    (hload : ∀ name s s', loadConfig name s = .ok s' → s'.warnings ≤ s.warnings)
    (h : performOne env false loadConfig s d = .ok s') : s'.warnings ≤ s.warnings := by
  cases d with
  | config name => exact hload name s s' h
  | help => simp [performOne] at h
  | version => simp [performOne] at h
  | misuse e => simp [performOne, misuse] at h
  | set | keep | pattern | operand =>
    obtain rfl := Except.ok.inj h
    exact Nat.le_refl _

theorem Session.warnings_perform {ds : List Directive}
    (hload : ∀ name s s', loadConfig name s = .ok s' → s'.warnings ≤ s.warnings)
    (h : perform env false loadConfig ds s = .ok s') : s'.warnings ≤ s.warnings := by
  induction ds generalizing s with
  | nil => exact Nat.le_of_eq (congrArg Session.warnings (Except.ok.inj h).symm)
  | cons d rest ih =>
    rw [perform_cons] at h
    obtain ⟨after, hfirst, hrest⟩ := exists_ok_of_bind h
    exact Nat.le_trans (ih hrest) (warnings_performOne hload hfirst)

/-- A command line that is accepted has given no warning. -/
theorem Session.warnings_ofArguments {arguments : List Bytes}
    (h : ofArguments env arguments = .ok s) : s.warnings = 0 := by
  obtain ⟨after, hperform, hrest⟩ := exists_ok_of_bind h
  have hwarnings : after.warnings ≤ 0 :=
    warnings_perform (fun _ _ _ hload => Config.warnings_load hload) hperform
  dsimp only at hrest
  split at hrest
  · simp [misuse] at hrest
  · rw [← Except.ok.inj hrest]
    exact Nat.le_zero.mp hwarnings

end Warnings

end NameGlob.Tool
