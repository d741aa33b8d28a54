import Monkey.Console.Terminal
import Monkey.Text.Utf8

/-! The command line: `monkey FILE` runs a source file, `monkey` starts a dialogue. -/
namespace Monkey.Terminal

/-- Carries an event out on the standard streams. -/
def perform : Event → IO Unit
  | .print text => IO.println text.toDisplay
  | .complain text => IO.eprintln text.toDisplay
  | .prompt text => do
    IO.print text.toDisplay
    (← IO.getStdout).flush

/-- The bytes of a file, or why they cannot be read. -/
def readBytes (path : Text) : IO (Except Text (List UInt8)) := do
  try
    let bytes ← IO.FS.readBinFile path.toDisplay
    return .ok bytes.toList
  catch
    | .noFileOrDirectory .. =>
      return .error (utf16 "ENOENT: no such file or directory, open '" ++ path ++ utf16 "'")
    | e => return .error (utf16 (toString e))

/-- Answers lines until the console is left; says whether it was. -/
def answerAll (p : Palette) (sh : Shell) : List Text → IO (Shell × Bool)
  | [] => return (sh, false)
  | line :: rest => do
    let (events, sh') := reply p sh line
    events.forM perform
    if sh'.done then return (sh', true) else answerAll p sh' rest

/-- The bytes up to a line feed or the end of the stream. -/
partial def readLine (input : IO.FS.Stream) (bytes : ByteArray) : IO ByteArray := do
  let next ← input.read 1
  if next.isEmpty then return bytes
  else if next.toList == [10] then return bytes ++ next
  else readLine input (bytes ++ next)

partial def converse (p : Palette) (sh : Shell) : IO Unit := do
  let raw ← readLine (← IO.getStdin) .empty
  if raw.isEmpty then return ()
  let (sh', left) ← answerAll p sh (lines (Utf8.decode raw.toList))
  if left then return () else converse p sh'

end Monkey.Terminal

open Monkey Monkey.Terminal in
def main (args : List String) : IO UInt32 := do
  match Task.ofArgs (args.map utf16) with
  | .file path =>
    let (code, events) := runFile (← source readBytes path)
    events.forM perform
    return code.toUInt32
  | .dialogue =>
    let tty ← (← IO.getStdout).isTty
    let noColour ← IO.getEnv "NO_COLOR"
    greeting.forM perform
    converse (.ofColour (colourEnabled tty (noColour.map utf16))) shell
    return 0
