import Monkey.Text.Basic

/-! Syntax trees. Any node may stand in any place: a statement list may hold blocks
and programs, an operand may be a return, and operators and names are any text.
`unknown` keeps the name of a kind that the language does not have. -/
namespace Monkey

inductive Node where
  | program (body : List Node)
  | block (body : List Node)
  | letStmt (name : Text) (value : Node)
  | returnStmt (value : Node)
  | exprStmt (expr : Node)
  | ident (name : Text)
  | int (value : Int)
  | bool (value : Bool)
  | unary (operator : Text) (operand : Node)
  | binary (operator : Text) (left right : Node)
  | ifThen (condition : Node) (consequence : List Node)
  | ifElse (condition : Node) (consequence alternative : List Node)
  | fnLit (params : List Text) (body : List Node)
  | call (callee : Node) (args : List Node)
  | unknown (kind : Text)
deriving Inhabited

end Monkey
