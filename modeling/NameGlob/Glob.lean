import NameGlob.Automaton.Compile
import NameGlob.Automaton.Run
import NameGlob.Pattern.Escape

/-!
# Globs

A glob is a pattern that is ready to decide texts. The pattern `*` accepts every text, so it needs no
automaton, and one shared glob serves all uses of it.
-/

namespace NameGlob

/-- A pattern that is ready to decide texts. -/
structure Glob where
  source : Bytes
  options : Options
  /-- The automaton of the pattern; without one the glob accepts every text. -/
  automaton : Option Automaton

inductive GlobError where
  | missing (argument : MissingArgument)
  | malformed (error : SyntaxError)
  deriving Repr, DecidableEq

namespace Glob

def star : Bytes := [0x2A]

/-- The glob that all uses of the pattern `*` share. -/
def all : Glob := ⟨star, .none, none⟩

def compile (source : Bytes) (options : Options) (locale : Locale) : Except SyntaxError Glob :=
  if source = star then .ok ⟨source, options, none⟩
  else
    match Automaton.compile source options locale with
    | .ok a => .ok ⟨source, options, some a⟩
    | .error e => .error e

/-- The glob of a pattern in the locale of the process. For `*` it is the common one, whose options are not
those asked for. -/
def shared (source : Bytes) (options : Options) (locale : Locale := .classic) : Except SyntaxError Glob :=
  if source = star then .ok all else compile source options locale

/-- Tells whether the glob accepts every text without looking at it. -/
def acceptsAll (g : Glob) : Bool :=
  g.automaton.isNone

/-- Decides a text with scratch space that earlier matches may have used. -/
def runWith (g : Glob) (text : Bytes) (s : Scratch) : Bool × Scratch :=
  match g.automaton with
  | none => (true, s)
  | some a => a.runWith text s

def accepts (g : Glob) (text : Bytes) : Bool :=
  match g.automaton with
  | none => true
  | some a => a.accepts text

/-- The glob of a pattern that may be missing and that ends before its first NUL byte, in the locale of the
process. -/
def compileArgument (source : Option Bytes) (options : Options) (locale : Locale := .classic) :
    Except GlobError Glob :=
  match MissingArgument.pattern.require source with
  | .error e => .error (.missing e)
  | .ok bytes => (compile bytes.untilNul options locale).mapError .malformed

/-- Decides a text that may be missing and that ends before its first NUL byte. A missing text is not
accepted. -/
def acceptsArgument (g : Glob) (text : Option Bytes) : Bool :=
  match text with
  | none => false
  | some bytes => g.accepts bytes.untilNul

end Glob

end NameGlob
