import Monkey.Console.Entry
import Monkey.Session
import Monkey.Value.Printer

/-! A console on a session: a line is a command if it starts with a colon, and a source
to evaluate otherwise. Whatever a line leads to is logged. -/
namespace Monkey

structure Shell where
  session : Session
  /-- The lines submitted so far. -/
  history : List Text
  entries : List Entry
  /-- Whether the console was left. -/
  done : Bool

abbrev ShellM := EStateM Failure Shell

namespace Shell

def helpText : Text := joinLines [
  utf16 ":help           show this message",
  utf16 ":tokens <src>   print the tokens of <src>",
  utf16 ":ast <src>      print <src> as parsed, fully parenthesized",
  utf16 ":env            list the global bindings",
  utf16 ":reset          drop every global binding",
  utf16 ":quit           leave the REPL"]

def create (depth : Nat) (entries : List Text) : Except Failure Shell :=
  match Session.create depth entries with
  | .ok session => .ok ⟨session, [], [], false⟩
  | .error f => .error f

/-- One line to a token: its kind, then its literal. -/
def listTokens (source : Text) : Text :=
  joinLines ((tokenize source).map fun t => trimEnd (t.kind.name ++ utf16 " " ++ t.literal))

def listBindings (bs : Bindings) : Except Failure Text :=
  if bs.isEmpty then .ok (utf16 "(no bindings)")
  else do
    let rows ← bs.mapM fun (name, value) => do
      return name ++ utf16 " = " ++ (← value.print)
    return joinLines rows

/-- The tree of a source that has no diagnostics. -/
def listTree (source : Text) : Except Failure Text := do
  let p ← parseClean source
  p.program.print

/-- The command word ends at the first space. -/
def commandWord (line : Text) : Text := line.takeWhile (· != unit ' ')

def commandArgument (line : Text) : Text := trim ((line.dropWhile (· != unit ' ')).drop 1)

def ofExcept : Except Failure α → ShellM α
  | .ok a => return a
  | .error f => throw f

/-- Runs an operation of the session; its effects stay when it fails. -/
def lift (m : SessionM α) : ShellM α := fun sh =>
  match m sh.session with
  | .ok a session => .ok a { sh with session }
  | .error f session => .error f { sh with session }

def command (line : Text) : ShellM (List Entry) := do
  let word := commandWord line
  if word == utf16 ":help" then return [.output helpText]
  else if word == utf16 ":tokens" then return [.output (listTokens (commandArgument line))]
  else if word == utf16 ":ast" then
    return [.output (← ofExcept (listTree (commandArgument line)))]
  else if word == utf16 ":env" then
    return [.output (← ofExcept (listBindings (← get).session.bindings))]
  else if word == utf16 ":reset" then
    lift Session.reset
    return [.output (utf16 "environment reset")]
  else if word == utf16 ":quit" then
    modify fun sh => { sh with done := true }
    return []
  else throw (.unknownCommand word)

def source (line : Text) : ShellM (List Entry) := do
  let value ← lift (Session.evaluate line)
  let output ← ofExcept value.print
  return [.source line, .result output]

/-- What a trimmed line that is not blank leads to. -/
def answer (line : Text) : ShellM (List Entry) :=
  if line.head? == some (unit ':') then command line else source line

def log (sh : Shell) (entries : List Entry) : Shell :=
  { sh with entries := sh.entries ++ entries }

/-- Submits a line. The entries it leads to are returned and logged; a blank line
leaves no trace. -/
def submit (sh : Shell) (line : Text) : List Entry × Shell :=
  let line := trim line
  if line.isEmpty then ([], sh)
  else
    match answer line { sh with history := sh.history ++ [line] } with
    | .ok entries sh' => (entries, sh'.log entries)
    | .error f sh' => ([.error line f.message], sh'.log [.error line f.message])

end Shell
end Monkey
