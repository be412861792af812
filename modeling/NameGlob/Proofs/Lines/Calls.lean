import NameGlob.Proofs.Lines.Pieces

/-!
# Calls for lines

A caller asks a reader for one line after the other. As long as a line is left, a call finds the next one;
from then on every call finds none and leaves an empty line. What the calls find depends on the bytes of the
file alone, not on the chunks in which they arrive and not on whether the reader looks for compressed files.
-/

namespace NameGlob

namespace Reader

/-- What a call for a line gives back: whether it found one, and the line as the call leaves it. -/
structure Answer where
  found : Bool
  line : Bytes
  deriving Repr, DecidableEq

/-- The answer when `line?` is what there was to find. -/
def Answer.ofLine? (line? : Option Bytes) : Answer :=
  ⟨line?.isSome, line?.getD []⟩

/-- A call for a line, with the reader that it leaves. -/
def ask (r : Reader) : Answer × Reader :=
  let (line?, rest) := r.next?
  (.ofLine? line?, rest)

/-- The answer to a call after `count` other calls. -/
def answer (r : Reader) : Nat → Answer
  | 0 => r.ask.1
  | count + 1 => r.ask.2.answer count

variable {r : Reader} {l : Bytes} {ls : List Bytes}

/-- While a line is left, a call finds it and leaves the lines behind it. -/
theorem ask_line (h : Bytes.lines r.bytes = l :: ls) :
    r.ask.1 = .ofLine? (some l) ∧ Bytes.lines r.ask.2.bytes = ls := by
  cases hnext : r.next? with
  | mk line? rest =>
    cases line? with
    | none =>
      have hnil : r.bytes = [] := (collect_none hnext).1
      rw [hnil, Bytes.lines_nil] at h
      cases h
    | some line =>
      have hlines : Bytes.lines r.bytes = line :: Bytes.lines rest.bytes :=
        collect_some hnext List.not_mem_nil
      obtain ⟨rfl, rfl⟩ := List.cons.inj (h.symm.trans hlines)
      simp [ask, hnext]

/-- When no line is left, a call finds none, and none is left behind it. -/
theorem ask_end (h : Bytes.lines r.bytes = []) :
    r.ask.1 = .ofLine? none ∧ Bytes.lines r.ask.2.bytes = [] := by
  cases hnext : r.next? with
  | mk line? rest =>
    cases line? with
    | none =>
      obtain ⟨-, rfl⟩ := collect_none hnext
      refine ⟨by simp [ask, hnext], ?_⟩
      have hrest : r.ask.2 = ⟨[], []⟩ := by simp [ask, hnext]
      rw [hrest]
      exact Bytes.lines_nil
    | some line =>
      have hlines : Bytes.lines r.bytes = line :: Bytes.lines rest.bytes :=
        collect_some hnext List.not_mem_nil
      rw [h] at hlines
      cases hlines

/-- After `count` other calls a call finds the line with the number `count`, if there is one. -/
theorem answer_eq (r : Reader) (count : Nat) :
    r.answer count = .ofLine? (Bytes.lines r.bytes)[count]? := by
  induction count generalizing r with
  | zero =>
    cases hlines : Bytes.lines r.bytes with
    | nil => exact (ask_end hlines).1
    | cons l ls => exact (ask_line hlines).1
  | succ count ih =>
    show r.ask.2.answer count = _
    rw [ih]
    cases hlines : Bytes.lines r.bytes with
    | nil => rw [(ask_end hlines).2, List.getElem?_nil, List.getElem?_nil]
    | cons l ls => rw [(ask_line hlines).2, List.getElem?_cons_succ]

end Reader

namespace LineReading

/-- Whatever the chunks in which the bytes of a file arrive, and whether or not compressed files are looked
for, the calls find the lines of the bytes in their order and from then on nothing, and there is no error. -/
theorem answers_ignore_chunks {bytes : Bytes} {decompress : Bool} {chunks : List Bytes}
    (harrive : chunks.flatten = bytes) (hplain : Reader.Plain decompress bytes) :
    (∃ r, Reader.ofChunks decompress chunks = some r ∧
      ∀ count, r.answer count = .ofLine? (Bytes.lines bytes)[count]?) ∧
    ∀ inflate, ofChunks decompress chunks none inflate = ⟨Bytes.lines bytes, ⟨[], []⟩, none⟩ := by
  subst harrive
  obtain ⟨r, hr, hbytes⟩ := Reader.exists_ofChunks_eq hplain.head?_ne
  refine ⟨⟨r, hr, fun count => ?_⟩, ofChunks_eq hplain.head?_ne none⟩
  rw [Reader.answer_eq, hbytes]

/-- Half of the mark of a compressed file arrives first, and the two bytes that end a line arrive apart. -/
theorem answers_ignore_chunks_apart :
    let chunks : List Bytes := [[0x1F], [0x61, 0x0D], [0x0A], [0x0D, 0x0A, 0x8B]]
    Reader.Plain true chunks.flatten ∧
      ∃ r, Reader.ofChunks true chunks = some r ∧
        r.answer 0 = ⟨true, [0x1F, 0x61]⟩ ∧ r.answer 1 = ⟨true, []⟩ ∧ r.answer 2 = ⟨true, [0x8B]⟩ ∧
        ∀ count, r.answer (count + 3) = ⟨false, []⟩ := by
  intro chunks
  have hplain : Reader.Plain true chunks.flatten := fun _ => by decide
  have hlines : Bytes.lines chunks.flatten = [[0x1F, 0x61], [], [0x8B]] := by decide +kernel
  obtain ⟨⟨r, hr, hanswer⟩, -⟩ := answers_ignore_chunks rfl hplain
  rw [hlines] at hanswer
  exact ⟨hplain, r, hr, hanswer 0, hanswer 1, hanswer 2, fun count => hanswer (count + 3)⟩

end LineReading

end NameGlob
