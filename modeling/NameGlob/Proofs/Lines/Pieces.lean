import NameGlob.Lines.File

/-!
# Lines as pieces of a file

The lines that a reader finds are the pieces between the newlines of the file, wherever its chunks end. The
line that is being collected holds no newline, so the next newline ends the first piece of what is left.
-/

namespace NameGlob

namespace Bytes

variable {piece rest : Bytes}

/-- The pieces of a byte string between its newlines, without a last one that is empty. One carriage return at
the end of a piece does not belong to the line. -/
def lines (bytes : Bytes) : List Bytes :=
  let pieces := bytes.splitOn 0x0A
  (if pieces.getLast? = some [] then pieces.dropLast else pieces).map fun piece =>
    if piece.getLast? = some 0x0D then piece.dropLast else piece

@[simp] theorem lines_nil : lines [] = [] := by
  simp [lines]

theorem lines_eq_singleton (h : 0x0A ∉ piece) (hne : piece ≠ []) : lines piece = [dropReturn piece] := by
  simp [lines, dropReturn, List.splitOn_eq_singleton h, hne]

theorem sublist_intercalate {pieces : List Bytes} (h : piece ∈ pieces) (separator : Bytes) :
    piece.Sublist (separator.intercalate pieces) := by
  induction pieces with
  | nil => cases h
  | cons first others ih =>
    cases others with
    | nil => simp_all
    | cons second others =>
      rw [List.intercalate_cons_cons]
      rcases List.mem_cons.mp h with rfl | hothers
      · rw [List.append_assoc]
        exact List.sublist_append_left _ _
      · exact (ih hothers).trans (List.sublist_append_right _ _)

/-- A line holds the bytes of a part of its file. -/
theorem sublist_of_mem_lines {bytes line : Bytes} (h : line ∈ lines bytes) : line.Sublist bytes := by
  obtain ⟨piece, hpiece, rfl⟩ := List.mem_map.mp h
  have hsplit : piece ∈ bytes.splitOn 0x0A := by
    split at hpiece
    · exact List.dropLast_subset _ hpiece
    · exact hpiece
  have hjoined := sublist_intercalate hsplit [0x0A]
  rw [List.intercalate_splitOn] at hjoined
  split
  · exact (List.dropLast_sublist piece).trans hjoined
  · exact hjoined

theorem lines_append_cons (h : 0x0A ∉ piece) (rest : Bytes) :
    lines (piece ++ 0x0A :: rest) = dropReturn piece :: lines rest := by
  have hne := List.splitOn_ne_nil (0x0A : UInt8) rest
  simp only [lines, List.splitOn_append_cons_self_of_not_mem h]
  rw [List.getLast?_cons_of_ne_nil hne, List.dropLast_cons_of_ne_nil hne]
  split <;> rfl

end Bytes

namespace Reader

variable {line buffer l : Bytes} {chunks : List Bytes} {r : Reader}

/-- What is left to be read. -/
def bytes (r : Reader) : Bytes :=
  r.buffer ++ r.chunks.flatten

theorem newline_not_mem_takeWhile (buffer : Bytes) : 0x0A ∉ buffer.takeWhile inLine := by
  intro hmem
  have hall := List.all_takeWhile (p := inLine) (l := buffer)
  have hnewline := List.all_eq_true.mp hall _ hmem
  simp [inLine] at hnewline

theorem dropWhile_inLine_cons {b : UInt8} {rest : Bytes} (h : buffer.dropWhile inLine = b :: rest) :
    buffer = buffer.takeWhile inLine ++ 0x0A :: rest := by
  have hb : inLine b = false := by
    have hhead := List.head?_dropWhile_not inLine buffer
    simpa [h] using hhead
  have hnewline : b = 0x0A := by simpa [inLine] using hb
  rw [← hnewline, ← h, List.takeWhile_append_dropWhile]

theorem newline_not_mem_of_dropWhile (h : buffer.dropWhile inLine = []) : 0x0A ∉ buffer := by
  have htake : buffer.takeWhile inLine = buffer := by
    simpa [h] using List.takeWhile_append_dropWhile (p := inLine) (l := buffer)
  rw [← htake]
  exact newline_not_mem_takeWhile buffer

/-- A line that is found is the first line of what was left. -/
theorem collect_some (h : collect line buffer chunks = (some l, r)) (hline : 0x0A ∉ line) :
    Bytes.lines (line ++ (Reader.mk buffer chunks).bytes) = l :: Bytes.lines r.bytes := by
  fun_induction collect line buffer chunks with
  | case1 chunks line buffer b rest hb =>
    -- the newline stands in this chunk
    obtain ⟨hl, rfl⟩ := Prod.mk.inj h
    obtain rfl := Option.some.inj hl
    have hpiece : 0x0A ∉ line ++ buffer.takeWhile inLine :=
      List.not_mem_append hline (newline_not_mem_takeWhile buffer)
    have hbytes : (Reader.mk buffer chunks).bytes =
        buffer.takeWhile inLine ++ 0x0A :: (Reader.mk rest chunks).bytes := by
      calc (Reader.mk buffer chunks).bytes
        _ = (buffer.takeWhile inLine ++ 0x0A :: rest) ++ chunks.flatten := by
          rw [← dropWhile_inLine_cons hb, bytes]
        _ = buffer.takeWhile inLine ++ 0x0A :: (Reader.mk rest chunks).bytes := by simp [bytes]
    rw [hbytes, ← List.append_assoc, Bytes.lines_append_cons hpiece]
  | case2 => simp at h
  | case3 line buffer hb hne =>
    -- the file ends without a newline
    obtain ⟨hl, rfl⟩ := Prod.mk.inj h
    obtain rfl := Option.some.inj hl
    have hpiece := List.not_mem_append hline (newline_not_mem_of_dropWhile hb)
    simpa [bytes] using Bytes.lines_eq_singleton hpiece (by simpa using hne)
  | case4 line buffer hb chunk chunks ih =>
    have hrest := ih h (List.not_mem_append hline (newline_not_mem_of_dropWhile hb))
    simpa [bytes] using hrest

/-- No line is found only at the end of a file. -/
theorem collect_none (h : collect line buffer chunks = (none, r)) :
    line ++ (Reader.mk buffer chunks).bytes = [] ∧ r = ⟨[], []⟩ := by
  fun_induction collect line buffer chunks with
  | case1 => simp at h
  | case2 line buffer _ hempty =>
    obtain ⟨-, rfl⟩ := Prod.mk.inj h
    exact ⟨by simpa [bytes] using hempty, rfl⟩
  | case3 => simp at h
  | case4 line buffer _ chunk chunks ih =>
    obtain ⟨hnil, hr⟩ := ih h
    exact ⟨by simpa [bytes] using hnil, hr⟩

/-- A reader finds the lines of what it has left, and then nothing is left. -/
theorem all_eq (r : Reader) : r.all = (Bytes.lines r.bytes, ⟨[], []⟩) := by
  induction r using all.induct with
  | case1 r rest hnext =>
    obtain ⟨hnil, rfl⟩ := collect_none hnext
    have hbytes : r.bytes = [] := hnil
    rw [all, hnext, hbytes, Bytes.lines_nil]
  | case2 r line rest hnext _ _ _ ih =>
    have hlines : Bytes.lines r.bytes = line :: Bytes.lines rest.bytes := collect_some hnext (by simp)
    rw [all, hnext, hlines]
    simp only [ih]

theorem flatten_cut {size : Nat} (hsize : size ≠ 0) (bytes : Bytes) : (cut size bytes).flatten = bytes := by
  induction bytes using cut.induct size with
  | case1 bytes hend =>
    rw [cut, if_pos hend]
    exact (hend.resolve_right hsize).symm
  | case2 bytes hmore ih =>
    rw [cut, if_neg hmore, List.flatten_cons, ih, List.take_append_drop]

theorem flatten_chunksOf (decompress : Bool) (bytes : Bytes) :
    (chunksOf decompress bytes).flatten = bytes := by
  have hchunk : chunkSize ≠ 0 := by decide
  unfold chunksOf
  split
  · rw [List.flatten_append, flatten_cut (by decide), flatten_cut hchunk, List.take_append_drop]
  · exact flatten_cut hchunk bytes

/-- Unless the first chunk is the mark of a compressed file, a reader of chunks has all of them left. -/
theorem exists_ofChunks_eq {decompress : Bool}
    (h : decompress = true → chunks.head? ≠ some compressionMark) :
    ∃ r, ofChunks decompress chunks = some r ∧ r.bytes = chunks.flatten := by
  unfold ofChunks
  split
  · rename_i hdecompress
    cases chunks with
    | nil => exact ⟨_, rfl, rfl⟩
    | cons first rest =>
      have hmark : first ≠ compressionMark := by simpa using h hdecompress
      exact ⟨⟨first, rest⟩, by simp [hmark], rfl⟩
  · exact ⟨_, rfl, rfl⟩

/-- The bytes are not taken for a compressed file. -/
def Plain (decompress : Bool) (bytes : Bytes) : Prop :=
  decompress = true → ¬ [0x1F, 0x8B] <+: bytes

theorem plain_nil (decompress : Bool) : Plain decompress [] := by
  intro _
  decide

theorem Plain.head?_ne {decompress : Bool} (h : Plain decompress chunks.flatten)
    (hdecompress : decompress = true) : chunks.head? ≠ some compressionMark := by
  intro hhead
  obtain ⟨rest, rfl⟩ := List.head?_eq_some_iff.mp hhead
  exact h hdecompress (List.prefix_append _ _)

end Reader

namespace LineReading

/-- Chunks are read as the lines of the whole file, unless the first one is the mark of a compressed file. -/
theorem ofChunks_eq {decompress : Bool} {chunks : List Bytes}
    (h : decompress = true → chunks.head? ≠ some Reader.compressionMark) (error : Option ReadError)
    (inflate : Inflater) :
    ofChunks decompress chunks error inflate = ⟨Bytes.lines chunks.flatten, ⟨[], []⟩, error⟩ := by
  obtain ⟨r, hr, hbytes⟩ := Reader.exists_ofChunks_eq h
  rw [ofChunks, hr]
  simp only [ofReader, Reader.all_eq, hbytes]

/-- A file that is not compressed is read as its lines, however it ends. -/
theorem ofBytes_eq {decompress : Bool} {bytes : Bytes} (h : Reader.Plain decompress bytes)
    (error : Option ReadError) (inflate : Inflater) :
    ofBytes decompress bytes error inflate = ⟨Bytes.lines bytes, ⟨[], []⟩, error⟩ := by
  have hchunks : Reader.Plain decompress (Reader.chunksOf decompress bytes).flatten := by
    rwa [Reader.flatten_chunksOf]
  rw [ofBytes, ofChunks_eq hchunks.head?_ne, Reader.flatten_chunksOf]

end LineReading

end NameGlob
