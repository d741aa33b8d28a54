import Monkey.Text.Numeral
import Monkey.Token.Basic

/-! What the parser reports: a problem and the token at which it showed. -/
namespace Monkey

inductive Problem where
  | expected (kind : TokenKind)
  | noOperand
  | integerTooLarge
  | unclosedBlock (opening : Cursor)
  | badParameter
deriving DecidableEq, Repr

structure Diagnostic where
  problem : Problem
  found : Token
deriving DecidableEq, Repr

/-- A message followed by its place, counted from one. -/
def located (message : Text) (position : Cursor) : Text :=
  message ++ utf16 " (line " ++ decimalNat (position.line + 1) ++ utf16 ", column " ++
    decimalNat (position.col + 1) ++ utf16 ")"

/-- Reports one to a line. -/
def joinLines (reports : List Text) : Text := (utf16 "\n").intercalate reports

namespace Diagnostic

def position (d : Diagnostic) : Cursor := d.found.start

def message (d : Diagnostic) : Text :=
  match d.problem with
  | .expected kind =>
    utf16 "expected next token to be " ++ kind.label ++ utf16 ", got " ++ d.found.describe ++
      utf16 " instead"
  | .noOperand => utf16 "no prefix parse function for " ++ d.found.describe ++ utf16 " found"
  | .integerTooLarge => utf16 "could not parse " ++ d.found.literal ++ utf16 " as integer"
  | .unclosedBlock opening =>
    utf16 "expected '\x7d' to close block started at line " ++ decimalNat (opening.line + 1) ++
      utf16 " column " ++ decimalNat (opening.col + 1) ++ utf16 ", got end of input instead"
  | .badParameter =>
    utf16 "expected parameter to be identifier, got " ++ d.found.describe ++ utf16 " instead"

def format (d : Diagnostic) : Text := located d.message d.position

end Diagnostic
end Monkey
