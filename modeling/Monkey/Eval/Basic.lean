import Monkey.Eval.Operator
import Monkey.Value.Store

/-! Evaluation. A return travels upwards as a signal value: each form that evaluates a
part passes a signal up before it does anything else, and only programs and calls open
it. The store survives a failure. -/
namespace Monkey

abbrev Eval := EStateM Failure Store

namespace Eval

def newFrame (outer : Option FrameId) : Eval FrameId :=
  modifyGet fun s => s.alloc outer

def define (frame : FrameId) (name : Text) (value : Value) : Eval Unit :=
  modify fun s => s.define frame name value

/-- A name that is bound nowhere is `null`. -/
def readName (frame : FrameId) (name : Text) : Eval Value :=
  return ((← get).lookup frame name).getD .null

def newFunction (params : List Text) (body : List Node) (frame : FrameId) : Eval Value :=
  modifyGet fun s =>
    (.function ⟨params, body, frame, s.closures⟩, { s with closures := s.closures + 1 })

/-- A frame inside `outer` that binds each name to its value. -/
def extend (params : List Text) (args : List Value) (outer : FrameId) : Eval FrameId :=
  if params.length = args.length then
    modifyGet fun s => s.push ⟨.ofArguments params args, some outer⟩
  else throw (.unmatchedNames params args)

/-- The frame of a call. -/
def bindParams (params : List Text) (args : List Value) (outer : FrameId) : Eval FrameId :=
  if args.length = params.length then extend params args outer
  else throw (.argumentCount params args)

/-- Goes on with a plain value and passes a return signal up. -/
def onValue (m : Eval Value) (next : Value → Eval Value) : Eval Value := do
  match ← m with
  | .returning v => return .returning v
  | v => next v

/-- Evaluates statements in order; `last` is the result if there are none. -/
def statements (eval : Node → Eval Value) (last : Value) : List Node → Eval Value
  | [] => return last
  | n :: ns => onValue (eval n) fun v => statements eval v ns

/-- Passes a return signal up. -/
def block (eval : Node → Eval Value) (body : List Node) : Eval Value :=
  statements eval .null body

/-- Opens a return signal. -/
def program (eval : Node → Eval Value) (body : List Node) : Eval Value :=
  return (← statements eval .null body).unwrap

/-- Evaluates arguments from left to right and goes on with their values. -/
def arguments (eval : Node → Eval Value) (next : List Value → Eval Value) :
    List Node → Eval Value
  | [] => next []
  | n :: ns => onValue (eval n) fun v => arguments eval (fun vs => next (v :: vs)) ns

/-- The frame of a call hangs off the frame the function was made in. -/
def apply (eval : Node → FrameId → Eval Value) (f : Closure) (args : List Value) : Eval Value := do
  let frame ← bindParams f.params args f.env
  return (← block (eval · frame) f.body).unwrap

/-- A call of what is no function gives `null`. -/
def call (eval : Node → FrameId → Eval Value) (callee : Value) (args : List Value) : Eval Value :=
  match callee with
  | .function f => apply eval f args
  | _ => return .null

def binary (operator : Text) (left right : Node) (l r : Value) : Eval Value :=
  match applyBinary operator l r with
  | some v => return v
  | none => throw (.divisionByZero (.binary operator left right) l r)

/-- One step of evaluation, where `eval` evaluates the parts. -/
def step (eval : Node → FrameId → Eval Value) (node : Node) (frame : FrameId) : Eval Value :=
  match node with
  | .program body => program (eval · frame) body
  | .block body => block (eval · frame) body
  | .exprStmt expr => eval expr frame
  | .letStmt name value => onValue (eval value frame) fun v => do
    define frame name v
    return v
  | .returnStmt value => onValue (eval value frame) fun v => return .returning v
  | .ident name => readName frame name
  | .int value => return .int value
  | .bool value => return .bool value
  | .unary operator operand => onValue (eval operand frame) fun v => return applyUnary operator v
  | .binary operator left right =>
    onValue (eval left frame) fun l => onValue (eval right frame) fun r =>
      binary operator left right l r
  | .ifThen condition consequence => onValue (eval condition frame) fun v =>
    if v.isTruthy then block (eval · frame) consequence else return .null
  | .ifElse condition consequence alternative => onValue (eval condition frame) fun v =>
    block (eval · frame) (if v.isTruthy then consequence else alternative)
  | .fnLit params body => newFunction params body frame
  | .call callee args => onValue (eval callee frame) fun f =>
    arguments (eval · frame) (call eval f) args
  | .unknown kind => throw (.unexpectedNode kind)

/-- Evaluates a node in a frame; the result may be a return signal. Forms and calls may
nest `depth` deep. -/
def node : Nat → Node → FrameId → Eval Value
  | 0, _, _ => throw .tooDeep
  | depth + 1, n, frame => step (node depth) n frame

end Eval

/-- The value of a node in a frame. -/
def evaluate (depth : Nat) (n : Node) (frame : FrameId) : Eval Value :=
  return (← Eval.node depth n frame).unwrap

def evaluateBlock (depth : Nat) (body : List Node) (frame : FrameId) : Eval Value :=
  Eval.block (Eval.node depth · frame) body

def evaluateProgram (depth : Nat) (body : List Node) (frame : FrameId) : Eval Value :=
  Eval.program (Eval.node depth · frame) body

def applyFunction (depth : Nat) (f : Closure) (args : List Value) : Eval Value :=
  Eval.apply (Eval.node depth) f args

end Monkey
