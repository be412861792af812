import Mathlib.Data.List.Forall2
import Mathlib.Data.List.Induction
import NameGlob.Filter
import NameGlob.Proofs.Glob.Agreement

/-!
# Histories of a filter

A filter is told patterns to include and to exclude, in any order and between decisions on names. A set of
the filter holds the globs of the patterns that were added to it, one after the other, and a malformed
pattern leaves no trace. So a decision can be read off the answers given before: it is made by the verdicts
of the added patterns, each on its own.

## Main definitions

- `GlobSet.Holds` — a set holds the globs of given patterns
- `NameFilter.Call`, `NameFilter.Answer` — what a filter is asked, and what it answers
- `NameFilter.run` — the filter after some calls, with a record of them
- `NameFilter.included`, `NameFilter.excluded` — the patterns that a record shows as added
- `NameFilter.Holds` — the sets of a filter hold the globs of given patterns
-/

namespace NameGlob

namespace Glob

variable {pattern : Bytes} {options : Options} {locale : Locale} {g : Glob}

theorem source_of_shared (h : shared pattern options locale = .ok g) : g.source = pattern := by
  unfold shared compile at h
  split at h
  · rename_i hstar
    obtain rfl := Except.ok.inj h
    exact hstar.symm
  · split at h
    · obtain rfl := Except.ok.inj h
      rfl
    · simp at h

/-- A pattern has no shared glob exactly when it has no automaton, and for the same reason. -/
theorem shared_eq_error_iff {e : SyntaxError} :
    shared pattern options locale = .error e ↔ Automaton.compile pattern options locale = .error e := by
  have hverdict := shared_accepts pattern options locale []
  unfold Automaton.verdict at hverdict
  cases hshared : shared pattern options locale <;>
    cases hcompile : Automaton.compile pattern options locale <;>
      simp_all [Except.map]

theorem accepts_of_shared (h : shared pattern options locale = .ok g) (text : Bytes) :
    g.accepts text = true ↔ Automaton.verdict pattern options locale text = .ok true := by
  rw [← shared_accepts, h]
  simp [Except.map]

end Glob

namespace GlobSet

variable {set grown : GlobSet} {options : Options} {locale : Locale} {patterns : List Bytes} {pattern text : Bytes}

/-- The set holds the shared globs of these patterns, in this order. -/
structure Holds (set : GlobSet) (options : Options) (locale : Locale) (patterns : List Bytes) : Prop where
  options_eq : set.options = options
  globs : List.Forall₂ (fun g pattern => Glob.shared pattern options locale = .ok g) set.globs patterns

theorem holds_empty (options : Options) (locale : Locale) : Holds ⟨options, []⟩ options locale [] :=
  ⟨rfl, .nil⟩

theorem Holds.map_source (h : set.Holds options locale patterns) : set.globs.map Glob.source = patterns := by
  obtain ⟨-, hglobs⟩ := h
  generalize set.globs = globs at hglobs
  induction hglobs with
  | nil => rfl
  | cons hshared _ ih => rw [List.map_cons, Glob.source_of_shared hshared, ih]

theorem Holds.insert_eq_error_iff (h : set.Holds options locale patterns) {e : SyntaxError} :
    set.insert pattern locale = .error e ↔ Automaton.compile pattern options locale = .error e := by
  rw [← Glob.shared_eq_error_iff, GlobSet.insert, h.options_eq]
  cases Glob.shared pattern options locale <;> simp

theorem Holds.insert (h : set.Holds options locale patterns) (hinsert : set.insert pattern locale = .ok grown) :
    grown.Holds options locale (patterns ++ [pattern]) := by
  unfold GlobSet.insert at hinsert
  rw [h.options_eq] at hinsert
  split at hinsert
  · rename_i g hshared
    obtain rfl := Except.ok.inj hinsert
    exact ⟨rfl, List.rel_append h.globs (.cons hshared .nil)⟩
  · simp at hinsert

/-- A pattern that can be read is added. -/
theorem Holds.exists_insert (h : set.Holds options locale patterns) {items : List Item}
    (hparse : Pattern.parse pattern = .ok items) :
    ∃ grown, set.insert pattern locale = .ok grown ∧ grown.Holds options locale (patterns ++ [pattern]) := by
  cases hinsert : set.insert pattern locale with
  | error e =>
    rw [h.insert_eq_error_iff, Automaton.compile_eq_ok hparse] at hinsert
    simp at hinsert
  | ok grown => exact ⟨grown, rfl, h.insert hinsert⟩

/-- Scratch space that globs share does not change the answer of any of them, and the search may end at
the first that accepts. -/
theorem anyOf_eq_any {s : Scratch} (h : s.Balanced) (globs : List Glob) :
    anyOf text s globs = globs.any (·.accepts text) := by
  induction globs generalizing s with
  | nil => rfl
  | cons g rest ih =>
    have hrest := ih (Glob.balanced_runWith h g text)
    have hfirst := Glob.runWith_eq_accepts h g text
    rw [anyOf, List.any_cons]
    cases hrun : g.runWith text s with
    | mk accepted s' =>
      rw [hrun] at hrest hfirst
      rw [← hrest, ← hfirst]
      cases accepted <;> rfl

theorem Holds.any_accepts_iff (h : set.Holds options locale patterns) :
    set.globs.any (·.accepts text) = true ↔
      ∃ q ∈ patterns, Automaton.verdict q options locale text = .ok true := by
  obtain ⟨-, hglobs⟩ := h
  generalize set.globs = globs at hglobs
  induction hglobs with
  | nil => simp
  | cons hshared _ ih =>
    rw [List.any_cons, Bool.or_eq_true, ih, Glob.accepts_of_shared hshared]
    simp

/-- A set answers by the verdicts of its patterns, or by the default when it has none. -/
theorem Holds.any_iff (h : set.Holds options locale patterns) {default : Bool} :
    set.any text default = true ↔ (patterns = [] ∧ default = true) ∨
      ∃ q ∈ patterns, Automaton.verdict q options locale text = .ok true := by
  rw [← h.any_accepts_iff, any, anyOf_eq_any Scratch.balanced_fresh, ← h.map_source]
  cases set.globs <;> simp

end GlobSet

namespace NameFilter

section Holds

variable {f grown : NameFilter} {options : Options} {locale : Locale} {includes excludes : List Bytes} {pattern : Bytes}
  {items : List Item}

/-- The sets of the filter hold the shared globs of these patterns. -/
structure Holds (f : NameFilter) (options : Options) (locale : Locale) (includes excludes : List Bytes) :
    Prop where
  includes : f.includes.Holds options locale includes
  excludes : f.excludes.Holds options locale excludes

theorem holds_empty (options : Options) (locale : Locale) : (empty options).Holds options locale [] [] :=
  ⟨GlobSet.holds_empty options locale, GlobSet.holds_empty options locale⟩

theorem Holds.addInclude (h : f.Holds options locale includes excludes)
    (hadd : f.addInclude pattern locale = .ok grown) :
    grown.Holds options locale (includes ++ [pattern]) excludes := by
  rw [NameFilter.addInclude] at hadd
  cases hinsert : f.includes.insert pattern locale with
  | error e => simp [hinsert, Except.map] at hadd
  | ok set =>
    rw [hinsert] at hadd
    obtain rfl := Except.ok.inj hadd
    exact ⟨h.includes.insert hinsert, h.excludes⟩

theorem Holds.addExclude (h : f.Holds options locale includes excludes)
    (hadd : f.addExclude pattern locale = .ok grown) :
    grown.Holds options locale includes (excludes ++ [pattern]) := by
  rw [NameFilter.addExclude] at hadd
  cases hinsert : f.excludes.insert pattern locale with
  | error e => simp [hinsert, Except.map] at hadd
  | ok set =>
    rw [hinsert] at hadd
    obtain rfl := Except.ok.inj hadd
    exact ⟨h.includes, h.excludes.insert hinsert⟩

/-- A name must match one of the patterns to include, unless there are none, and none of the patterns to
exclude. -/
theorem Holds.accepts_iff (h : f.Holds options locale includes excludes) (name : Bytes) :
    f.accepts name = true ↔
      (includes = [] ∨ ∃ q ∈ includes, Automaton.verdict q options locale name = .ok true) ∧
      ∀ q ∈ excludes, Automaton.verdict q options locale name ≠ .ok true := by
  rw [accepts, Bool.and_eq_true, h.includes.any_iff, Bool.not_eq_true', Bool.eq_false_iff, ne_eq,
    h.excludes.any_iff]
  simp

theorem Holds.exists_addInclude (h : f.Holds options locale includes excludes)
    (hparse : Pattern.parse pattern = .ok items) :
    ∃ grown, f.addInclude pattern locale = .ok grown ∧ grown.Holds options locale (includes ++ [pattern]) excludes := by
  obtain ⟨set, hset, -⟩ := h.includes.exists_insert hparse
  have hadd : f.addInclude pattern locale = .ok { f with includes := set } := by
    rw [NameFilter.addInclude, hset]
    rfl
  exact ⟨_, hadd, h.addInclude hadd⟩

theorem Holds.exists_addExclude (h : f.Holds options locale includes excludes)
    (hparse : Pattern.parse pattern = .ok items) :
    ∃ grown, f.addExclude pattern locale = .ok grown ∧ grown.Holds options locale includes (excludes ++ [pattern]) := by
  obtain ⟨set, hset, -⟩ := h.excludes.exists_insert hparse
  have hadd : f.addExclude pattern locale = .ok { f with excludes := set } := by
    rw [NameFilter.addExclude, hset]
    rfl
  exact ⟨_, hadd, h.addExclude hadd⟩

/-- Patterns that can be added one at a time can be added one after the other. -/
theorem exists_foldlM_add (add : NameFilter → Bytes → Except SyntaxError NameFilter)
    (Held : NameFilter → List Bytes → Prop)
    (hadd : ∀ f held pattern items, Held f held → Pattern.parse pattern = .ok items →
      ∃ grown, add f pattern = .ok grown ∧ Held grown (held ++ [pattern]))
    {held patterns : List Bytes} (h : Held f held)
    (hparse : ∀ p ∈ patterns, ∃ items, Pattern.parse p = .ok items) :
    ∃ grown, patterns.foldlM add f = .ok grown ∧ Held grown (held ++ patterns) := by
  induction patterns generalizing f held with
  | nil => exact ⟨f, rfl, by simpa using h⟩
  | cons pattern rest ih =>
    obtain ⟨items, hitems⟩ := hparse pattern List.mem_cons_self
    obtain ⟨first, hfirst, hheld⟩ := hadd f held pattern items h hitems
    obtain ⟨grown, hgrown, hall⟩ := ih hheld fun p hp => hparse p (List.mem_cons_of_mem _ hp)
    rw [List.foldlM_cons, hfirst]
    exact ⟨grown, hgrown, by simpa using hall⟩

theorem Holds.exists_foldlM_addInclude {patterns : List Bytes} (h : f.Holds options locale includes excludes)
    (hparse : ∀ p ∈ patterns, ∃ items, Pattern.parse p = .ok items) :
    ∃ grown, patterns.foldlM (·.addInclude · locale) f = .ok grown ∧
      grown.Holds options locale (includes ++ patterns) excludes :=
  exists_foldlM_add (·.addInclude · locale) (fun f held => f.Holds options locale held excludes)
    (fun _ _ _ _ => Holds.exists_addInclude) h hparse

theorem Holds.exists_foldlM_addExclude {patterns : List Bytes} (h : f.Holds options locale includes excludes)
    (hparse : ∀ p ∈ patterns, ∃ items, Pattern.parse p = .ok items) :
    ∃ grown, patterns.foldlM (·.addExclude · locale) f = .ok grown ∧
      grown.Holds options locale includes (excludes ++ patterns) :=
  exists_foldlM_add (·.addExclude · locale) (fun f held => f.Holds options locale includes held)
    (fun _ _ _ _ => Holds.exists_addExclude) h hparse

/-- Patterns that can be read have a filter, which decides by their verdicts. -/
theorem exists_ofPatterns
    (hparse : ∀ p ∈ includes ++ excludes, ∃ items, Pattern.parse p = .ok items) (options : Options)
    (locale : Locale) :
    ∃ f, ofPatterns options locale includes excludes = .ok f ∧ ∀ name, f.accepts name = true ↔
      (includes = [] ∨ ∃ q ∈ includes, Automaton.verdict q options locale name = .ok true) ∧
      ∀ q ∈ excludes, Automaton.verdict q options locale name ≠ .ok true := by
  obtain ⟨f, hf, hincludes⟩ := (holds_empty options locale).exists_foldlM_addInclude
    fun p hp => hparse p (List.mem_append_left _ hp)
  obtain ⟨g, hg, hholds⟩ := hincludes.exists_foldlM_addExclude
    fun p hp => hparse p (List.mem_append_right _ hp)
  have hfilter : ofPatterns options locale includes excludes = .ok g := by
    rw [ofPatterns, hf]
    exact hg
  exact ⟨g, hfilter, hholds.accepts_iff⟩

end Holds

inductive Call where
  | including (pattern : Bytes)
  | excluding (pattern : Bytes)
  | deciding (name : Bytes)
  deriving Repr, DecidableEq

inductive Answer where
  | added
  /-- The pattern is malformed and was not added. -/
  | refused (error : SyntaxError)
  | decided (accepted : Bool)
  deriving Repr, DecidableEq

/-- The answer to adding a pattern, and the filter afterwards. -/
def settle (f : NameFilter) : Except SyntaxError NameFilter → Answer × NameFilter
  | .ok grown => (.added, grown)
  | .error e => (.refused e, f)

/-- The answer to a call in the given locale, and the filter afterwards. -/
def perform (locale : Locale) (f : NameFilter) : Call → Answer × NameFilter
  | .including pattern => f.settle (f.addInclude pattern locale)
  | .excluding pattern => f.settle (f.addExclude pattern locale)
  | .deciding name => (.decided (f.accepts name), f)

/-- One more call on a filter, with the record of the calls before it. -/
def step (locale : Locale) (history : NameFilter × List (Call × Answer)) (call : Call) :
    NameFilter × List (Call × Answer) :=
  let (answer, f) := history.1.perform locale call
  (f, history.2 ++ [(call, answer)])

/-- A new filter after some calls, with the record of them. -/
def run (options : Options) (locale : Locale) (calls : List Call) : NameFilter × List (Call × Answer) :=
  calls.foldl (step locale) (.empty options, [])

/-- The patterns to include that a record shows as added, in the order of the calls. -/
def included (record : List (Call × Answer)) : List Bytes :=
  record.filterMap fun
    | (.including pattern, .added) => some pattern
    | _ => none

/-- The patterns to exclude that a record shows as added, in the order of the calls. -/
def excluded (record : List (Call × Answer)) : List Bytes :=
  record.filterMap fun
    | (.excluding pattern, .added) => some pattern
    | _ => none

/-- Whether a pattern could be compiled decides whether it is added. -/
def Answer.ofCompiling : Except SyntaxError Automaton → Answer
  | .ok _ => .added
  | .error e => .refused e

variable {f : NameFilter} {options : Options} {locale : Locale}

/-- A pattern is added to a set exactly when it can be compiled. -/
theorem settle_insert {set : GlobSet} {patterns : List Bytes} (h : set.Holds options locale patterns)
    (f : NameFilter) (pattern : Bytes) (put : GlobSet → NameFilter) :
    (f.settle ((set.insert pattern locale).map put)).1 =
      .ofCompiling (Automaton.compile pattern options locale) := by
  cases hinsert : set.insert pattern locale with
  | error e =>
    rw [h.insert_eq_error_iff.mp hinsert]
    rfl
  | ok grown =>
    cases hcompile : Automaton.compile pattern options locale with
    | error e =>
      rw [h.insert_eq_error_iff.mpr hcompile] at hinsert
      simp at hinsert
    | ok a => rfl

/-- A refused call leaves the filter as it was. -/
theorem perform_of_refused {call : Call} {e : SyntaxError} (h : (f.perform locale call).1 = .refused e) :
    (f.perform locale call).2 = f := by
  have hsettle : ∀ x : Except SyntaxError NameFilter,
      (f.settle x).1 = .refused e → (f.settle x).2 = f := by
    intro x hx
    cases x with
    | error e => rfl
    | ok grown => simp [settle] at hx
  cases call with
  | including pattern => exact hsettle _ h
  | excluding pattern => exact hsettle _ h
  | deciding name => rfl

/-- After one more call, the filter holds what the record then shows as added. -/
theorem Holds.perform {record : List (Call × Answer)}
    (h : f.Holds options locale (included record) (excluded record)) (call : Call) :
    (f.perform locale call).2.Holds options locale (included (record ++ [(call, (f.perform locale call).1)]))
      (excluded (record ++ [(call, (f.perform locale call).1)])) := by
  cases call with
  | including pattern =>
    rw [NameFilter.perform]
    cases hadd : f.addInclude pattern locale with
    | error e => simpa [settle, included, excluded] using h
    | ok grown => simpa [settle, included, excluded] using h.addInclude hadd
  | excluding pattern =>
    rw [NameFilter.perform]
    cases hadd : f.addExclude pattern locale with
    | error e => simpa [settle, included, excluded] using h
    | ok grown => simpa [settle, included, excluded] using h.addExclude hadd
  | deciding name => simpa [NameFilter.perform, included, excluded] using h

/-- After any calls the sets hold the patterns that the record shows as added. -/
theorem holds_run (options : Options) (locale : Locale) (calls : List Call) :
    (run options locale calls).1.Holds options locale (included (run options locale calls).2)
      (excluded (run options locale calls).2) := by
  induction calls using List.reverseRecOn with
  | nil => exact holds_empty options locale
  | append_singleton calls call ih =>
    rw [run, List.foldl_append]
    exact ih.perform call

theorem map_fst_run (options : Options) (locale : Locale) (calls : List Call) :
    (run options locale calls).2.map Prod.fst = calls := by
  induction calls using List.reverseRecOn with
  | nil => rfl
  | append_singleton calls call ih =>
    rw [run, List.foldl_append]
    change List.map Prod.fst ((run options locale calls).2 ++ [(call, _)]) = _
    rw [List.map_append, ih]
    rfl

/-- After any calls on a new filter, its sets list the patterns whose calls were answered as added, in the
order of the calls. A further pattern is added if it can be compiled and leaves no trace otherwise, and a name is
decided by the verdicts of the added patterns. -/
theorem decides_by_added (options : Options) (locale : Locale) (calls : List Call) :
    let f := (run options locale calls).1
    let record := (run options locale calls).2
    (record.map Prod.fst = calls ∧ f.includes.globs.map Glob.source = included record ∧
        f.excludes.globs.map Glob.source = excluded record) ∧
      (∀ pattern, (f.perform locale (.including pattern)).1 =
          .ofCompiling (Automaton.compile pattern options locale) ∧
        (f.perform locale (.excluding pattern)).1 =
          .ofCompiling (Automaton.compile pattern options locale)) ∧
      (∀ call e, (f.perform locale call).1 = .refused e → (f.perform locale call).2 = f) ∧
      ∀ name, ∃ accepted, f.perform locale (.deciding name) = (.decided accepted, f) ∧
        (accepted = true ↔
          (included record = [] ∨
            ∃ q ∈ included record, Automaton.verdict q options locale name = .ok true) ∧
          ∀ q ∈ excluded record, Automaton.verdict q options locale name ≠ .ok true) := by
  intro f record
  have hholds : f.Holds options locale (included record) (excluded record) := holds_run options locale calls
  refine ⟨⟨map_fst_run options locale calls, ?_, ?_⟩, fun pattern => ?_, ?_, fun name => ?_⟩
  · exact hholds.includes.map_source
  · exact hholds.excludes.map_source
  · exact ⟨settle_insert hholds.includes f pattern _, settle_insert hholds.excludes f pattern _⟩
  · exact fun call e => perform_of_refused
  · exact ⟨f.accepts name, rfl, hholds.accepts_iff name⟩

end NameFilter

end NameGlob
