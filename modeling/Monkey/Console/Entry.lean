import Monkey.Text.Numeral

/-! The log of a console and how its entries look on a screen. -/
namespace Monkey

inductive Entry where
  | source (text : Text)
  | result (output : Text)
  | error (source message : Text)
  | output (text : Text)
deriving DecidableEq, Repr

/-- The colour code of each kind of entry, if it has one. -/
structure Palette where
  source : Option Nat
  result : Option Nat
  error : Option Nat
  output : Option Nat

namespace Palette

def plain : Palette := ⟨none, none, none, none⟩

/-- Cyan, green, red and gray. -/
def coloured : Palette := ⟨some 36, some 32, some 31, some 90⟩

def ofColour (colour : Bool) : Palette := if colour then coloured else plain

end Palette

/-- Colours need a terminal, and a non-empty setting turns them off. -/
def colourEnabled (tty : Bool) (noColour : Option Text) : Bool :=
  tty && (noColour.getD []).isEmpty

/-- Puts a text between an escape code and the code that ends it. -/
def paint (code : Option Nat) (text : Text) : Text :=
  match code with
  | none => text
  | some n => utf16 "\x1b[" ++ decimalNat n ++ utf16 "m" ++ text ++ utf16 "\x1b[0m"

def complaint (message : Text) : Text := utf16 "Error: " ++ message

namespace Entry

def render (p : Palette) : Entry → Text
  | source text => paint p.source text
  | result text => paint p.result text
  | error _ message => paint p.error (complaint message)
  | output text => paint p.output text

end Entry
end Monkey
