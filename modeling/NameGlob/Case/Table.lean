import NameGlob.Text.Utf8

/-!
# Case of letters

A table relates the upper and lower case letters of the Latin, Greek, Cyrillic and Armenian
scripts and the fullwidth Latin letters. A row covers the upper case letters from `lo` to `hi` in
steps of `step`; the lower case letter of each lies `delta` above it.
-/

namespace NameGlob.Case

/-- A run of upper case letters with their lower case letters. -/
structure FoldRow where
  /-- The first upper case letter. -/
  lo : CodePoint
  /-- The last value that an upper case letter of the row may have. -/
  hi : CodePoint
  /-- The distance from an upper case letter to its lower case letter. -/
  delta : Int
  /-- The distance from one upper case letter to the next. -/
  step : Int
  deriving Repr, DecidableEq

namespace FoldRow

def hasUpper (row : FoldRow) (c : CodePoint) : Bool :=
  row.lo ≤ c && c ≤ row.hi && (c - row.lo) % row.step == 0

def hasLower (row : FoldRow) (c : CodePoint) : Bool :=
  row.hasUpper (c - row.delta)

end FoldRow

def asciiRow : FoldRow := ⟨0x0041, 0x005A, 32, 1⟩

/-- The letters outside ASCII, by ascending upper case letters. -/
def foldTable : List FoldRow :=
  [ -- Latin
    ⟨0x00C0, 0x00D6, 32, 1⟩,
    ⟨0x00D8, 0x00DE, 32, 1⟩,
    ⟨0x0100, 0x012F, 1, 2⟩,
    ⟨0x0132, 0x0137, 1, 2⟩,
    ⟨0x0139, 0x0148, 1, 2⟩,
    ⟨0x014A, 0x0177, 1, 2⟩,
    ⟨0x0178, 0x0178, -121, 1⟩,
    ⟨0x0179, 0x017E, 1, 2⟩,
    -- Greek
    ⟨0x0386, 0x0386, 38, 1⟩,
    ⟨0x0388, 0x038A, 37, 1⟩,
    ⟨0x038C, 0x038C, 64, 1⟩,
    ⟨0x038E, 0x038F, 63, 1⟩,
    ⟨0x0391, 0x03A1, 32, 1⟩,
    ⟨0x03A3, 0x03AB, 32, 1⟩,
    -- Cyrillic
    ⟨0x0400, 0x040F, 80, 1⟩,
    ⟨0x0410, 0x042F, 32, 1⟩,
    ⟨0x0460, 0x0481, 1, 2⟩,
    ⟨0x048A, 0x04BF, 1, 2⟩,
    ⟨0x04D0, 0x052F, 1, 2⟩,
    -- Armenian
    ⟨0x0531, 0x0556, 48, 1⟩,
    -- Latin with further marks
    ⟨0x1E00, 0x1E95, 1, 2⟩,
    ⟨0x1EA0, 0x1EFF, 1, 2⟩,
    -- fullwidth Latin
    ⟨0xFF21, 0xFF3A, 32, 1⟩ ]

/-- The lower case letter of `c` by ascending `rows`. The search ends at the first row that begins
above `c`. -/
def lowerIn (c : CodePoint) : List FoldRow → CodePoint
  | [] => c
  | row :: rows =>
    if c < row.lo then c
    else if row.hasUpper c then c + row.delta
    else lowerIn c rows

/-- The lower case letter of an upper case letter; every other value is left as it is. -/
def lower (c : CodePoint) : CodePoint :=
  if c < 0x80 then if asciiRow.hasUpper c then c + asciiRow.delta else c
  else lowerIn c foldTable

/-- The upper case letter of a lower case letter; every other value is left as it is. The lower
case letters of the rows do not ascend, so all rows are searched. -/
def upper (c : CodePoint) : CodePoint :=
  if c < 0x80 then if asciiRow.hasLower c then c - asciiRow.delta else c
  else
    match foldTable.find? (·.hasLower c) with
    | some row => c - row.delta
    | none => c

end NameGlob.Case
