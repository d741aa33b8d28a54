import Monkey.Text.Basic

/-! Bytes as text. Well-formed sequences become their characters, every longest
ill-formed beginning of a sequence becomes one U+FFFD, and a byte order mark is kept. -/
namespace Monkey.Utf8

/-- What a first byte announces: the bits it carries, how many bytes follow, and the
range of the byte after it. -/
structure Lead where
  bits : Nat
  more : Nat
  least : UInt8
  greatest : UInt8

/-- Leads of sequences of two to four bytes. The range of the second byte leaves out
overlong forms, surrogates and values past the last character. -/
def lead? (b : UInt8) : Option Lead :=
  if 0xC2 ≤ b && b ≤ 0xDF then some ⟨b.toNat - 0xC0, 1, 0x80, 0xBF⟩
  else if b == 0xE0 then some ⟨0, 2, 0xA0, 0xBF⟩
  else if b == 0xED then some ⟨0xD, 2, 0x80, 0x9F⟩
  else if 0xE1 ≤ b && b ≤ 0xEF then some ⟨b.toNat - 0xE0, 2, 0x80, 0xBF⟩
  else if b == 0xF0 then some ⟨0, 3, 0x90, 0xBF⟩
  else if b == 0xF4 then some ⟨4, 3, 0x80, 0x8F⟩
  else if 0xF1 ≤ b && b ≤ 0xF3 then some ⟨b.toNat - 0xF0, 3, 0x80, 0xBF⟩
  else none

/-- A sequence that is being read. -/
abbrev Pending := Option Lead

def replacement : Text := [0xFFFD]

/-- Reads a byte at which a character starts. -/
def start (b : UInt8) : Text × Pending :=
  if b < 0x80 then ([b.toUInt16], none)
  else match lead? b with
    | some l => ([], some l)
    | none => (replacement, none)

def step : Pending → UInt8 → Text × Pending
  | none, b => start b
  | some l, b =>
    if l.least ≤ b && b ≤ l.greatest then
      let bits := l.bits * 0x40 + (b.toNat - 0x80)
      if l.more ≤ 1 then (unitsOf (Char.ofNat bits), none)
      else ([], some ⟨bits, l.more - 1, 0x80, 0xBF⟩)
    else (replacement ++ (start b).1, (start b).2)

def decodeFrom : Pending → List UInt8 → Text
  | none, [] => []
  | some _, [] => replacement
  | p, b :: bs => (step p b).1 ++ decodeFrom (step p b).2 bs

def decode (bytes : List UInt8) : Text := decodeFrom none bytes

end Monkey.Utf8
