import Monkey.Grammar.Program
import Monkey.Value.Basic

/-! Why an operation fails, and what is said about it. -/
namespace Monkey

inductive Failure where
  | rejected (diagnostics : List Diagnostic)
  | unreadable (literal : Text)
  | divisionByZero (operation : Node) (left right : Value)
  | argumentCount (params : List Text) (args : List Value)
  | unmatchedNames (params : List Text) (args : List Value)
  | unexpectedNode (kind : Text)
  | unprintableNode (kind : Text)
  | unprintableValue (kind : Text)
  | unknownCommand (word : Text)
  | tooDeep

namespace Failure

def ofFault : ParseFault → Failure
  | .unreadable literal => unreadable literal
  | .tooDeep => tooDeep

def message : Failure → Text
  | rejected diagnostics => joinLines (diagnostics.map Diagnostic.format)
  | unreadable literal => utf16 "Cannot convert " ++ literal ++ utf16 " to a BigInt"
  | divisionByZero _ _ _ => utf16 "division by zero"
  | argumentCount params args =>
    utf16 "Arguments length mismatch: fn accepts " ++ decimalNat params.length ++
      utf16 " arguments, but " ++ decimalNat args.length ++ utf16 " were provided"
  | unmatchedNames _ _ => utf16 "Number of parameters and arguments must match"
  | unexpectedNode _ => utf16 "Unexpected node"
  | unprintableNode _ => utf16 "unhandled node type"
  | unprintableValue _ => utf16 "unhandled value type"
  | unknownCommand word =>
    utf16 "Unknown command " ++ word ++ utf16 ". Type :help for commands."
  | tooDeep => utf16 "Maximum call stack size exceeded"

end Failure
end Monkey
