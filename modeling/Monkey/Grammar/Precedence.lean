import Monkey.Token.Basic

/-! How tightly operators bind. -/
namespace Monkey

inductive Precedence where
  | lowest | equality | comparison | sum | product | unary | call
deriving DecidableEq, Repr

namespace Precedence

def level : Precedence → Nat
  | lowest => 0
  | equality => 1
  | comparison => 2
  | sum => 3
  | product => 4
  | unary => 5
  | call => 6

/-- The level of a token between two operands, where an opening parenthesis is a
call. A token that joins nothing has the lowest. -/
def ofKind : TokenKind → Precedence
  | .eq | .notEq => equality
  | .lt | .gt => comparison
  | .plus | .minus => sum
  | .asterisk | .slash => product
  | .lparen => call
  | _ => lowest

end Precedence
end Monkey
