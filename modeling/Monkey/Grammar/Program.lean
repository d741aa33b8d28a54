import Monkey.Grammar.Expression
import Monkey.Token.Lexer

/-! Whole programs. Statements that do not parse are left out and reported. -/
namespace Monkey

structure Parse where
  statements : List Node
  diagnostics : List Diagnostic
  omitted : Nat

namespace Parse

def program (p : Parse) : Node := .program p.statements

def reports (p : Parse) : List Text := p.diagnostics.map Diagnostic.format

end Parse

namespace Parser

/-- Statements up to the end of input. -/
def programBody (expr : Precedence → Parser Node) : Nat → Parser (List Node)
  | 0 => fail .tooDeep
  | fuel + 1 => do
    let token ← current
    if token.kind = .eof then return []
    else
      let first ← orOmit (statement expr)
      advance
      let rest ← programBody expr fuel
      return first.toList ++ rest

end Parser

/-- The parse of a token list. Every nested expression and every round of a loop
takes a token, so one more than their number is fuel enough. -/
def parseTokens (ts : List Token) : Except ParseFault Parse :=
  let fuel := ts.length + 1
  match Parser.programBody (Parser.expression fuel) fuel ⟨.ofTokens ts, [], 0⟩ with
  | .ok statements s => .ok ⟨statements, s.diagnostics, s.omitted⟩
  | .error .recorded s => .ok ⟨[], s.diagnostics, s.omitted⟩
  | .error (.fault f) _ => .error f

def parse (source : Text) : Except ParseFault Parse := parseTokens (tokenize source)

end Monkey
