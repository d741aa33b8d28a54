import Monkey.Node.Basic
import Monkey.Text.Numeral

/-! Source text of a tree. Every operator expression is put in parentheses, so that
the text reads back as the same tree. -/
namespace Monkey

/-- Statements between braces. -/
def braced (statements : List Text) : Text :=
  if statements.isEmpty then utf16 "\x7b \x7d"
  else utf16 "\x7b " ++ (utf16 "; ").intercalate statements ++ utf16 " \x7d"

/-- Text of a function with its body already rendered. -/
def renderFn (params : List Text) (body : List Text) : Text :=
  utf16 "fn(" ++ (utf16 ", ").intercalate params ++ utf16 ") " ++ braced body

namespace Node

mutual

/-- Text of a tree. A brace starts no expression, so a bare block is written as a
conditional that always runs. -/
def render : Node → Text
  | program body => (utf16 "; ").intercalate (renderAll body)
  | block body => utf16 "if (true) " ++ braced (renderAll body)
  | letStmt name value => utf16 "let " ++ name ++ utf16 " = " ++ render value
  | returnStmt value => utf16 "return " ++ render value
  | exprStmt expr => render expr
  | ident name => name
  | int value => decimal value
  | bool value => if value then utf16 "true" else utf16 "false"
  | unary operator operand => utf16 "(" ++ operator ++ render operand ++ utf16 ")"
  | binary operator left right =>
    utf16 "(" ++ render left ++ utf16 " " ++ operator ++ utf16 " " ++ render right ++ utf16 ")"
  | ifThen condition consequence =>
    utf16 "if (" ++ render condition ++ utf16 ") " ++ braced (renderAll consequence)
  | ifElse condition consequence alternative =>
    utf16 "if (" ++ render condition ++ utf16 ") " ++ braced (renderAll consequence) ++
      utf16 " else " ++ braced (renderAll alternative)
  | fnLit params body => renderFn params (renderAll body)
  | call callee args =>
    render callee ++ utf16 "(" ++ (utf16 ", ").intercalate (renderAll args) ++ utf16 ")"
  | unknown _ => []

def renderAll : List Node → List Text
  | [] => []
  | n :: ns => render n :: renderAll ns

end

mutual

/-- The first unknown kind in the order of the text. -/
def unknown? : Node → Option Text
  | program body => unknownIn? body
  | block body => unknownIn? body
  | letStmt _ value => unknown? value
  | returnStmt value => unknown? value
  | exprStmt expr => unknown? expr
  | ident _ => none
  | int _ => none
  | bool _ => none
  | unary _ operand => unknown? operand
  | binary _ left right => (unknown? left).or (unknown? right)
  | ifThen condition consequence => (unknown? condition).or (unknownIn? consequence)
  | ifElse condition consequence alternative =>
    ((unknown? condition).or (unknownIn? consequence)).or (unknownIn? alternative)
  | fnLit _ body => unknownIn? body
  | call callee args => (unknown? callee).or (unknownIn? args)
  | unknown kind => some kind

def unknownIn? : List Node → Option Text
  | [] => none
  | n :: ns => (unknown? n).or (unknownIn? ns)

end

theorem renderAll_eq_map (ns : List Node) : renderAll ns = ns.map render := by
  induction ns with
  | nil => rfl
  | cons n ns ih => simp [renderAll, ih]

end Node
end Monkey
