import Monkey.Text.Basic

/-! The lines of a text. A line ends at a line feed, a carriage return, or the pair
of both; what follows the last ending is a line unless it is empty. -/
namespace Monkey

/-- Lines of the text, with `line` already read of the first one. -/
def linesFrom (line : Text) : Text → List Text
  | [] => if line.isEmpty then [] else [line]
  | [u] =>
    if u == unit '\n' || u == unit '\r' then [line] else [line ++ [u]]
  | u :: v :: rest =>
    if u == unit '\r' && v == unit '\n' then line :: linesFrom [] rest
    else if u == unit '\n' || u == unit '\r' then line :: linesFrom [] (v :: rest)
    else linesFrom (line ++ [u]) (v :: rest)

def lines (t : Text) : List Text := linesFrom [] t

end Monkey
