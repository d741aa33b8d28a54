import Monkey.Grammar.Parser
import Monkey.Grammar.Precedence
import Monkey.Node.Basic
import Monkey.Text.Numeral

/-! Expressions and statements. Each form is a parser over the parser `expr` of the
expressions inside it, and `expression` closes the circle. Its fuel bounds both the
nesting and the number of rounds of every loop. -/
namespace Monkey.Parser

/-- The greatest integer literal is the greatest signed 64-bit word. -/
def maxInteger : Int := 9223372036854775807

def integerLiteral (token : Token) : Parser Node :=
  match integer? token.literal with
  | none => fail (.unreadable token.literal)
  | some value => if maxInteger < value then reject .integerTooLarge token else return .int value

/-- Further items up to a parenthesis; a comma before it is allowed. -/
def moreItems (item : Parser α) : Nat → Parser (List α)
  | 0 => fail .tooDeep
  | fuel + 1 => do
    if (← peek).kind = .comma then
      advance
      if (← peek).kind = .rparen then return []
      else
        advance
        let first ← item
        let rest ← moreItems item fuel
        return first :: rest
    else return []

/-- Items between parentheses; the current token is the opening one. -/
def items (item : Parser α) (fuel : Nat) : Parser (List α) := do
  if (← peek).kind = .rparen then
    advance
    return []
  else
    advance
    let first ← item
    let rest ← moreItems item fuel
    expect .rparen
    return first :: rest

def parameter : Parser Text := do
  let token ← current
  if token.kind = .ident then return token.literal else reject .badParameter token

section Forms

variable (expr : Precedence → Parser Node)

def letStatement : Parser Node := do
  expect .ident
  let name ← current
  expect .assign
  advance
  let value ← expr .lowest
  skipSemicolon
  return .letStmt name.literal value

def returnStatement : Parser Node := do
  advance
  let value ← expr .lowest
  skipSemicolon
  return .returnStmt value

def expressionStatement : Parser Node := do
  let value ← expr .lowest
  skipSemicolon
  return .exprStmt value

def statement : Parser Node := do
  match (← current).kind with
  | .letWord => letStatement expr
  | .returnWord => returnStatement expr
  | _ => expressionStatement expr

/-- Statements up to the closing brace of the block that `opening` started. -/
def blockBody (opening : Cursor) : Nat → Parser (List Node)
  | 0 => fail .tooDeep
  | fuel + 1 => do
    let token ← current
    if token.kind = .rbrace then return []
    else if token.kind = .eof then reject (.unclosedBlock opening) token
    else
      let first ← orOmit (statement expr)
      advance
      let rest ← blockBody opening fuel
      return first.toList ++ rest

/-- The current token is the opening brace. -/
def block (fuel : Nat) : Parser (List Node) := do
  let opening ← current
  advance
  blockBody expr opening.start fuel

def unaryExpression (operator : Text) : Parser Node := do
  advance
  let operand ← expr .unary
  return .unary operator operand

def grouped : Parser Node := do
  advance
  let inner ← expr .lowest
  expect .rparen
  return inner

def conditional (fuel : Nat) : Parser Node := do
  expect .lparen
  advance
  let condition ← expr .lowest
  expect .rparen
  expect .lbrace
  let consequence ← block expr fuel
  if (← peek).kind = .elseWord then
    advance
    expect .lbrace
    let alternative ← block expr fuel
    return .ifElse condition consequence alternative
  else return .ifThen condition consequence

def functionLiteral (fuel : Nat) : Parser Node := do
  expect .lparen
  let params ← items parameter fuel
  expect .lbrace
  let body ← block expr fuel
  return .fnLit params body

/-- An expression that no operator on its left side has started. -/
def operand (fuel : Nat) : Parser Node := do
  let token ← current
  match token.kind with
  | .ident => return .ident token.literal
  | .int => integerLiteral token
  | .trueWord => return .bool true
  | .falseWord => return .bool false
  | .bang | .minus => unaryExpression expr token.literal
  | .lparen => grouped expr
  | .ifWord => conditional expr fuel
  | .fnWord => functionLiteral expr fuel
  | _ => reject .noOperand token

/-- What the operator `next` makes of `left`; the current token is `next`. -/
def continuation (fuel : Nat) (left : Node) (next : Token) : Parser Node := do
  if next.kind = .lparen then
    let args ← items (expr .lowest) fuel
    return .call left args
  else
    advance
    let right ← expr (.ofKind next.kind)
    return .binary next.literal left right

/-- Extends `left` by the operators that bind more tightly than `floor`. -/
def operators (floor : Precedence) : Nat → Node → Parser Node
  | 0, _ => fail .tooDeep
  | fuel + 1, left => do
    let next ← peek
    if floor.level < (Precedence.ofKind next.kind).level then
      advance
      let longer ← continuation expr fuel left next
      operators floor fuel longer
    else return left

end Forms

/-- An expression whose operators bind more tightly than `floor`. -/
def expression : Nat → Precedence → Parser Node
  | 0, _ => fail .tooDeep
  | fuel + 1, floor => do
    let left ← operand (expression fuel) fuel
    operators (expression fuel) floor fuel left

end Monkey.Parser
