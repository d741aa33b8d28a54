import Monkey.Node.Basic

/-! Values of the language, and the return signal that carries one of them out of
nested statements. `unknown` keeps the name of a kind that the language does not have. -/
namespace Monkey

/-- A place in the store of frames. -/
abbrev FrameId := Nat

/-- A function with the frame it was made in. The stamp tells apart functions that
were made at different times. -/
structure Closure where
  params : List Text
  body : List Node
  env : FrameId
  stamp : Nat

inductive Value where
  | int (value : Int)
  | bool (value : Bool)
  | null
  | function (closure : Closure)
  | returning (value : Value)
  | unknown (kind : Text)
deriving Inhabited

namespace Value

/-- Only `null` and `false` are falsy. -/
def isFalsy : Value → Bool
  | null => true
  | bool b => !b
  | _ => false

def isTruthy (v : Value) : Bool := !v.isFalsy

def isInt : Value → Bool
  | int _ => true
  | _ => false

def isBool : Value → Bool
  | bool _ => true
  | _ => false

def isNull : Value → Bool
  | null => true
  | _ => false

def isFunction : Value → Bool
  | function _ => true
  | _ => false

def isReturning : Value → Bool
  | returning _ => true
  | _ => false

/-- The value that a return signal carries; any other value is left alone. -/
def unwrap : Value → Value
  | returning v => v
  | v => v

/-- Equality by content, and by stamp for functions. A signal equals nothing. -/
def same : Value → Value → Bool
  | int a, int b => a == b
  | bool a, bool b => a == b
  | null, null => true
  | function f, function g => f.stamp == g.stamp
  | _, _ => false

/-- Booleans take part in arithmetic as zero and one. -/
def asInt? : Value → Option Int
  | int n => some n
  | bool b => some (if b then 1 else 0)
  | _ => none

/-- The names of the kinds of plain values. -/
def isKindName (kind : Text) : Bool :=
  kind == utf16 "integer" || kind == utf16 "boolean" || kind == utf16 "null" ||
    kind == utf16 "function"

/-- Whether the value is of one of the four plain kinds. -/
def isPlain : Value → Bool
  | returning _ => false
  | unknown _ => false
  | _ => true

end Value
end Monkey
