import Monkey.Console.Shell
import Monkey.Text.Line
import Monkey.Text.Utf8

/-! What a run shows on a terminal: a source file and its value, or a dialogue of
lines and answers. -/
namespace Monkey

inductive Event where
  | print (text : Text)
  | complain (text : Text)
  | prompt (text : Text)
deriving DecidableEq, Repr

namespace Event

def printed? : Event → Option Text
  | print text => some text
  | _ => none

def complained? : Event → Option Text
  | complain text => some text
  | _ => none

def prompted? : Event → Option Text
  | prompt text => some text
  | _ => none

end Event

namespace Terminal

/-- How deep evaluation may nest. -/
def depth : Nat := 10000

def promptText : Text := utf16 ">> "

def banner : Text := utf16 "Type :help for commands, :quit to exit."

/-- What a run is asked to do. -/
inductive Task where
  | file (path : Text)
  | dialogue
deriving DecidableEq, Repr

/-- The first argument names a file unless it is missing or empty. -/
def Task.ofArgs : List Text → Task
  | [] => .dialogue
  | path :: _ => if path.isEmpty then .dialogue else .file path

/-- The printed value of a whole source in a new session. -/
def valueText (source : Text) : Except Failure Text :=
  match Session.create depth [] with
  | .error f => .error f
  | .ok session =>
    match Session.evaluate source session with
    | .ok value _ => value.print
    | .error f _ => .error f

/-- Runs a file, given its text or why it cannot be read. The result is the exit code
and what is shown. -/
def runFile (contents : Except Text Text) : Nat × List Event :=
  match contents with
  | .error message => (1, [.complain (complaint message)])
  | .ok source =>
    match valueText source with
    | .ok text => (0, [.print text])
    | .error f => (1, [.complain (complaint f.message)])

/-- An echo of the source is not shown, since the user typed it. -/
def show? (p : Palette) (e : Entry) : Option Event :=
  match e with
  | .source _ => none
  | .error _ _ => some (.complain (e.render p))
  | e => some (.print (e.render p))

/-- The start of a dialogue. -/
def greeting : List Event := [.print banner, .prompt promptText]

/-- The answer to one line, and a prompt unless the console was left. -/
def reply (p : Palette) (sh : Shell) (line : Text) : List Event × Shell :=
  let (entries, sh') := sh.submit line
  (entries.filterMap (show? p) ++ (if sh'.done then [] else [.prompt promptText]), sh')

/-- The answers to lines until the console is left. -/
def replies (p : Palette) : Shell → List Text → List Event
  | _, [] => []
  | sh, line :: rest =>
    let (events, sh') := reply p sh line
    if sh'.done then events else events ++ replies p sh' rest

/-- The shell at the start of a dialogue. -/
def shell : Shell := ⟨.blank depth [], [], [], false⟩

/-- A whole dialogue on an input. -/
def dialogue (p : Palette) (input : Text) : List Event :=
  greeting ++ replies p shell (lines input)

/-- The text of a file. How its bytes are read, or why they cannot be, is up to the system. -/
def source [Functor m] (readBytes : Text → m (Except Text (List UInt8))) (path : Text) :
    m (Except Text Text) :=
  Except.map Utf8.decode <$> readBytes path

/-- A whole run, given what reading a file gives: the exit code and what is shown. -/
def run (p : Palette) (read : Text → Except Text Text) (args : List Text) (input : Text) :
    Nat × List Event :=
  match Task.ofArgs args with
  | .file path => runFile (read path)
  | .dialogue => (0, dialogue p input)

end Terminal
end Monkey
