/-!
# Pattern options

Options are a word of flags. Two of the flags steer matching; the other bits have no meaning, but a
pattern keeps and reports the word as it was given.
-/

namespace NameGlob

/-- A word of option flags. -/
structure Options where
  /-- The flags, one a bit. -/
  bits : Int32
  deriving Repr, DecidableEq

namespace Options

def none : Options := ⟨0⟩

/-- The word in which the two meaningful flags are set as given, and no other. -/
def ofFlags (ignoreCase cultureInvariant : Bool) : Options :=
  ⟨(if ignoreCase then 2 else 0) ||| (if cultureInvariant then 4 else 0)⟩

/-- Letters match regardless of their case. -/
def ignoreCase (o : Options) : Bool :=
  o.bits &&& 2 != 0

/-- Case does not depend on a locale. -/
def cultureInvariant (o : Options) : Bool :=
  o.bits &&& 4 != 0

@[simp] theorem ignoreCase_none : none.ignoreCase = false := by decide

@[simp] theorem cultureInvariant_none : none.cultureInvariant = false := by decide

@[simp] theorem ignoreCase_ofFlags (i c : Bool) : (ofFlags i c).ignoreCase = i := by
  cases i <;> cases c <;> decide

@[simp] theorem cultureInvariant_ofFlags (i c : Bool) : (ofFlags i c).cultureInvariant = c := by
  cases i <;> cases c <;> decide

end Options

end NameGlob
