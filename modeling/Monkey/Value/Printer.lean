import Monkey.Failure
import Monkey.Node.Printer

/-! Text of trees and values. What holds an unknown kind has no text. -/
namespace Monkey

def Node.print (n : Node) : Except Failure Text :=
  match n.unknown? with
  | some kind => .error (.unprintableNode kind)
  | none => .ok n.render

/-- A function is written without its environment. -/
def Closure.print (c : Closure) : Except Failure Text :=
  match Node.unknownIn? c.body with
  | some kind => .error (.unprintableNode kind)
  | none => .ok (renderFn c.params (Node.renderAll c.body))

/-- A return signal is written as the value it carries. -/
def Value.print : Value → Except Failure Text
  | .int n => .ok (decimal n)
  | .bool b => .ok (if b then utf16 "true" else utf16 "false")
  | .null => .ok (utf16 "null")
  | .function c => c.print
  | .returning v => v.print
  | .unknown kind => .error (.unprintableValue kind)

end Monkey
