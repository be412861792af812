import NameGlob.Bytes

/-!
# Reading lines

The bytes of a file arrive in chunks. A reader cuts them at newlines, wherever the chunks end. A line ends
at a newline; one carriage return before the newline is dropped. What follows the last newline is a line
too, unless it is empty.
-/

namespace NameGlob

/-- A line without the carriage return at its end, if there is one. -/
def dropReturn (line : Bytes) : Bytes :=
  if line.getLast? = some 0x0D then line.dropLast else line

/-- What is left of a file. -/
structure Reader where
  /-- The rest of the chunk that arrived last. -/
  buffer : Bytes
  /-- The chunks that are still to come. -/
  chunks : List Bytes
  deriving Repr, DecidableEq

namespace Reader

/-- Tells whether a byte does not end a line. -/
def inLine (b : UInt8) : Bool :=
  b != 0x0A

/-- Goes on with a line that began with `line`, in the chunk `buffer`. -/
def collect (line buffer : Bytes) (chunks : List Bytes) : Option Bytes × Reader :=
  match buffer.dropWhile inLine with
  | _ :: rest => (some (dropReturn (line ++ buffer.takeWhile inLine)), ⟨rest, chunks⟩)
  | [] =>
    match chunks with
    | [] =>
      if (line ++ buffer).isEmpty then (none, ⟨[], []⟩)
      else (some (dropReturn (line ++ buffer)), ⟨[], []⟩)
    | chunk :: chunks => collect (line ++ buffer) chunk chunks
termination_by structural chunks

def next? (r : Reader) : Option Bytes × Reader :=
  collect [] r.buffer r.chunks

def size (r : Reader) : Nat :=
  r.buffer.length + r.chunks.flatten.length

theorem collect_size_lt {line buffer : Bytes} {chunks : List Bytes} {l : Bytes} {r : Reader}
    (h : collect line buffer chunks = (some l, r)) :
    r.size < line.length + (Reader.mk buffer chunks).size := by
  fun_induction collect line buffer chunks with
  | case1 chunks line buffer b rest hb =>
    obtain ⟨_, rfl⟩ := Prod.mk.inj h
    have hlen := (List.dropWhile_sublist inLine (l := buffer)).length_le
    rw [hb, List.length_cons] at hlen
    simp only [size]
    omega
  | case2 => simp at h
  | case3 line buffer _ hne =>
    obtain ⟨_, rfl⟩ := Prod.mk.inj h
    have hpos : 0 < (line ++ buffer).length :=
      List.length_pos_iff.mpr fun hnil => hne (by simp [hnil])
    simp only [List.length_append] at hpos
    simp only [size, List.flatten_nil, List.length_nil]
    omega
  | case4 line buffer _ chunk chunks ih =>
    have hlt := ih h
    simp only [size, List.length_append, List.flatten_cons] at hlt ⊢
    omega

theorem next?_size_lt {r r' : Reader} {line : Bytes} (h : r.next? = (some line, r')) :
    r'.size < r.size := by
  simpa using collect_size_lt h

/-- All lines that are left, and what is left behind them. -/
def all (r : Reader) : List Bytes × Reader :=
  match _next : r.next? with
  | (none, rest) => ([], rest)
  | (some line, rest) =>
    let (lines, rest) := all rest
    (line :: lines, rest)
termination_by r.size
decreasing_by exact next?_size_lt _next

end Reader

end NameGlob
