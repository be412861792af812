import NameGlob.Bytes

/-!
# UTF-8

Reading and writing code points. Reading never fails: a byte that starts no well-formed
sequence is read alone, as a value outside the range of Unicode. Encoded surrogates are read
and written like any other code point.
-/

namespace NameGlob

/-- A character of a pattern or a text: a Unicode code point, or a value outside their range. -/
abbrev CodePoint := Int

namespace Utf8

def maxCodePoint : CodePoint := 0x10FFFF

/-- The value as which a byte that starts no well-formed sequence is read. It lies above every
code point, so it never equals one. -/
def invalid : CodePoint := 0x200000

/-- The code point that is written in place of a value outside the range of Unicode. -/
def replacement : CodePoint := 0xFFFD

/-- What the first byte of a sequence of several bytes tells about it. -/
structure Lead where
  /-- The number of continuation bytes. -/
  tail : Nat
  /-- The smallest code point that needs that many; a smaller one is overlong. -/
  least : Nat
  /-- The high bits of the code point. -/
  bits : Nat
  deriving Repr, DecidableEq

/-- The lead byte of a sequence of two to four bytes. -/
def lead? (b : UInt8) : Option Lead :=
  let n := b.toNat
  if n < 0xC2 then none
  else if n < 0xE0 then some ⟨1, 0x80, n - 0xC0⟩
  else if n < 0xF0 then some ⟨2, 0x800, n - 0xE0⟩
  else if n < 0xF5 then some ⟨3, 0x10000, n - 0xF0⟩
  else none

/-- Bytes `80` to `BF` continue a sequence. -/
def isContinuation (b : UInt8) : Bool :=
  0x80 ≤ b.toNat && b.toNat < 0xC0

/-- Appends the low bits of `count` continuation bytes to `bits`. -/
def gather : Nat → Nat → Bytes → Option Nat
  | 0, bits, _ => some bits
  | _ + 1, _, [] => none
  | count + 1, bits, b :: rest =>
    if isContinuation b then gather count (bits * 64 + (b.toNat - 0x80)) rest else none

/-- The code point at the front of `b :: rest`, and how many bytes of `rest` belong to it. A byte
that starts no well-formed sequence is `invalid` and takes no further byte. -/
def decode (b : UInt8) (rest : Bytes) : CodePoint × Nat :=
  if b.toNat < 0x80 then (b.toNat, 0)
  else
    match lead? b with
    | none => (invalid, 0)
    | some lead =>
      match gather lead.tail lead.bits rest with
      | none => (invalid, 0)
      | some c => if lead.least ≤ c ∧ c ≤ 0x10FFFF then (c, lead.tail) else (invalid, 0)

/-- The code points of a byte string from left to right, each with the number of its bytes. -/
def chars : Bytes → List (CodePoint × Nat)
  | [] => []
  | b :: rest =>
    let (c, more) := decode b rest
    (c, more + 1) :: chars (rest.drop more)
termination_by bytes => bytes.length
decreasing_by simp only [List.length_drop, List.length_cons]; omega

def codePoints (bytes : Bytes) : List CodePoint :=
  (chars bytes).map (·.1)

/-- The bytes of a code point; a value outside the range of Unicode is written as `replacement`. -/
def encode (c : CodePoint) : Bytes :=
  let n := if 0 ≤ c ∧ c ≤ maxCodePoint then c.toNat else replacement.toNat
  if n < 0x80 then [n.toUInt8]
  else if n < 0x800 then [(0xC0 + n / 64).toUInt8, (0x80 + n % 64).toUInt8]
  else if n < 0x10000 then
    [(0xE0 + n / 4096).toUInt8, (0x80 + n / 64 % 64).toUInt8, (0x80 + n % 64).toUInt8]
  else
    [(0xF0 + n / 262144).toUInt8, (0x80 + n / 4096 % 64).toUInt8,
      (0x80 + n / 64 % 64).toUInt8, (0x80 + n % 64).toUInt8]

def encodeAll (cs : List CodePoint) : Bytes :=
  cs.flatMap encode

def ascii (text : String) : List CodePoint :=
  text.toList.map fun c => (c.toNat : Int)

@[simp] theorem encodeAll_nil : encodeAll [] = [] := rfl

@[simp] theorem encodeAll_cons (c : CodePoint) (cs : List CodePoint) :
    encodeAll (c :: cs) = encode c ++ encodeAll cs := rfl

@[simp] theorem codePoints_nil : codePoints [] = [] := by
  simp [codePoints, chars]

theorem codePoints_cons (b : UInt8) (rest : Bytes) :
    codePoints (b :: rest) = (decode b rest).1 :: codePoints (rest.drop (decode b rest).2) := by
  simp [codePoints, chars]

theorem tail_le_of_lead? {b : UInt8} {lead : Lead} (h : lead? b = some lead) : lead.tail ≤ 3 := by
  unfold lead? at h
  grind

theorem decode_snd_le (b : UInt8) (rest : Bytes) : (decode b rest).2 ≤ 3 := by
  unfold decode
  split
  · simp
  · split
    · simp
    · rename_i lead h
      have hle := tail_le_of_lead? h
      split
      · simp
      · split
        · exact hle
        · simp

end Utf8

end NameGlob
