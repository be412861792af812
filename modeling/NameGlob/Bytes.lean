/-!
# Byte strings

Names, patterns and everything the program writes are byte strings. They need not be
well-formed UTF-8 and may hold NUL bytes.
-/

namespace NameGlob

abbrev Bytes := List UInt8

namespace Bytes

/-- The bytes of a text that holds ASCII characters only. -/
def ascii (text : String) : Bytes :=
  text.toList.map fun c => c.toNat.toUInt8

/-- The part of a byte string before its first NUL byte, or all of it. -/
def untilNul (bytes : Bytes) : Bytes :=
  bytes.takeWhile (· != 0)

/-- The decimal digits of a number, without leading zeros. -/
def decimal (n : Nat) : Bytes :=
  (Nat.toDigits 10 n).map fun c => c.toNat.toUInt8

def blanks (n : Nat) : Bytes :=
  List.replicate n 0x20

/-- The bytes of `bytes` from offset `start` up to, and not including, offset `stop`. -/
def slice (bytes : Bytes) (start stop : Nat) : Bytes :=
  (bytes.drop start).take (stop - start)

theorem decimal_eq (n : Nat) : decimal n = ascii (toString n) := by
  show _ = ascii (Nat.repr n)
  simp [decimal, ascii, Nat.repr]

theorem untilNul_eq_self {bytes : Bytes} (h : (0 : UInt8) ∉ bytes) : untilNul bytes = bytes := by
  induction bytes with
  | nil => rfl
  | cons b rest ih =>
    simp only [List.mem_cons, not_or] at h
    simpa [untilNul, Ne.symm h.1] using ih h.2

end Bytes

end NameGlob
