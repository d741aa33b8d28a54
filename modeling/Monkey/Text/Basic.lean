/-! Text as a sequence of 16-bit code units. A character outside the basic plane
is two units, and a unit that belongs to no pair may stand on its own, so every
cut of a text between two units is again a text. -/
namespace Monkey

abbrev CodeUnit := UInt16

abbrev Text := List CodeUnit

/-- The unit of a character of the basic plane. -/
def unit (c : Char) : CodeUnit := c.toNat.toUInt16

def unitsOf (c : Char) : Text :=
  if c.toNat < 0x10000 then [unit c]
  else [(0xD7C0 + c.toNat / 0x400).toUInt16, (0xDC00 + c.toNat % 0x400).toUInt16]

def utf16 (s : String) : Text := s.toList.flatMap unitsOf

def isHighSurrogate (u : CodeUnit) : Bool := 0xD800 ≤ u && u < 0xDC00

def isLowSurrogate (u : CodeUnit) : Bool := 0xDC00 ≤ u && u < 0xE000

/-- The character that a surrogate pair stands for. -/
def pairChar (high low : CodeUnit) : Char :=
  Char.ofNat (0x10000 + (high.toNat - 0xD800) * 0x400 + (low.toNat - 0xDC00))

/-- Reads the units as characters; `lone` spells a surrogate without a partner. -/
def decodeWith (lone : CodeUnit → List Char) : Text → List Char
  | [] => []
  | [u] => if isHighSurrogate u || isLowSurrogate u then lone u else [Char.ofNat u.toNat]
  | u :: v :: rest =>
    if isHighSurrogate u && isLowSurrogate v then pairChar u v :: decodeWith lone rest
    else if isHighSurrogate u || isLowSurrogate u then lone u ++ decodeWith lone (v :: rest)
    else Char.ofNat u.toNat :: decodeWith lone (v :: rest)

/-- The text as a string, with U+FFFD in place of every unpaired surrogate. -/
def Text.toDisplay (t : Text) : String :=
  String.ofList (decodeWith (fun _ => ['\uFFFD']) t)

end Monkey
