import NameGlob.Lines.Reader

/-!
# The lines of a file

A file is read in chunks of bounded size. A reader that expects compressed files looks at the first two bytes before
all others. A file that begins with the mark of compression is inflated, one member behind the other; any other file
is read as it is, these two bytes included.
-/

namespace NameGlob

/-- Why the lines of a file end early. -/
inductive ReadError where
  | failed
  /-- The compressed data is damaged. -/
  | damaged
  deriving Repr, DecidableEq

namespace ReadError

def message : ReadError → Bytes
  | failed => Bytes.ascii "error while reading"
  | damaged => Bytes.ascii "an error was detected in the gzip compressed data"

end ReadError

namespace Reader

/-- The greatest number of bytes that arrive at a time. -/
def chunkSize : Nat := 65536

def compressionMark : Bytes := [0x1F, 0x8B]

/-- Cuts bytes into chunks of `size` bytes; the last one may be shorter. -/
def cut (size : Nat) (bytes : Bytes) : List Bytes :=
  if bytes = [] ∨ size = 0 then []
  else bytes.take size :: cut size (bytes.drop size)
termination_by bytes.length
decreasing_by
  rename_i h
  have hpos := List.length_pos_iff.mpr (not_or.mp h).1
  have hsize := (not_or.mp h).2
  simp only [List.length_drop]
  omega

/-- The chunks in which the bytes of a file arrive. A reader that looks for compressed files asks for two
bytes first. -/
def chunksOf (decompress : Bool) (bytes : Bytes) : List Bytes :=
  if decompress then cut 2 (bytes.take 2) ++ cut chunkSize (bytes.drop 2)
  else cut chunkSize bytes

/-- The reader of the chunks of a file, unless the first of them is the mark of a compressed file that is
to be inflated. -/
def ofChunks (decompress : Bool) (chunks : List Bytes) : Option Reader :=
  if decompress then
    match chunks with
    | [] => some ⟨[], []⟩
    | first :: rest => if first = compressionMark then none else some ⟨first, rest⟩
  else some ⟨[], chunks⟩

end Reader

/-- What becomes of bytes at which a member of a compressed file begins. -/
inductive Inflation where
  /-- The member is inflated to `output`, and `rest` stands behind it. -/
  | whole (output rest : Bytes)
  /-- The bytes end within the member. -/
  | unfinished (output : Bytes)
  /-- An error was found, and `output` was inflated before. -/
  | damaged (output : Bytes)
  deriving Repr, DecidableEq

/-- A library that inflates one member of a compressed file. -/
abbrev Inflater := Bytes → Inflation

namespace Inflater

/-- How the members of a file end. -/
inductive Ending where
  | complete
  | unfinished
  | damaged
  deriving Repr, DecidableEq

/-- Without a library no member can be inflated. -/
def absent : Inflater := fun _ => .damaged []

/-- Inflates the members of a file one behind the other. A member takes up at least one byte. -/
def all (inflate : Inflater) (bytes : Bytes) : Bytes × Ending :=
  match inflate bytes with
  | .unfinished output => (output, .unfinished)
  | .damaged output => (output, .damaged)
  | .whole output rest =>
    if rest = [] then (output, .complete)
    else if rest.length < bytes.length then
      let (more, ending) := all inflate rest
      (output ++ more, ending)
    else (output, .damaged)
termination_by bytes.length

/-- The error of a file whose members end this way, where `error` says why no more of it could be read. -/
def Ending.error (error : Option ReadError) : Ending → Option ReadError
  | complete => error
  | unfinished => some (error.getD .damaged)
  | damaged => some .damaged

end Inflater

/-- The lines of a file. -/
structure LineReading where
  lines : List Bytes
  /-- What is left of the file behind them. -/
  rest : Reader
  /-- The error that ended the lines. -/
  error : Option ReadError
  deriving Repr, DecidableEq

namespace LineReading

/-- All lines of a reader. -/
def ofReader (reader : Reader) (error : Option ReadError) : LineReading :=
  let (lines, rest) := reader.all
  ⟨lines, rest, error⟩

/-- The lines of a file that arrives in these chunks, after which reading fails with `error`, if given. -/
def ofChunks (decompress : Bool) (chunks : List Bytes) (error : Option ReadError) (inflate : Inflater) :
    LineReading :=
  match Reader.ofChunks decompress chunks with
  | some reader => ofReader reader error
  | none =>
    let (output, ending) := inflate.all chunks.flatten
    ofReader ⟨[], Reader.cut Reader.chunkSize output⟩ (ending.error error)

/-- The lines of a file with these bytes, behind which reading fails with `error`, if given. -/
def ofBytes (decompress : Bool) (bytes : Bytes) (error : Option ReadError := none)
    (inflate : Inflater := .absent) : LineReading :=
  ofChunks decompress (Reader.chunksOf decompress bytes) error inflate

end LineReading

end NameGlob
