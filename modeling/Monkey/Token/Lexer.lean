import Monkey.Token.Basic

/-! Cutting a text into tokens. A word and a digit run are as long as they can be, a
symbol is one unit except for the two pairs that end in an equals sign, and the
blanks between tokens are dropped. -/
namespace Monkey

def isSpace (u : CodeUnit) : Bool :=
  u == unit ' ' || u == unit '\n' || u == unit '\r' || u == unit '\t'

def isLetter (u : CodeUnit) : Bool :=
  (unit 'a' ≤ u && u ≤ unit 'z') || (unit 'A' ≤ u && u ≤ unit 'Z') || u == unit '_'

def isDigit (u : CodeUnit) : Bool := unit '0' ≤ u && u ≤ unit '9'

/-- Kind and literal of the token that starts at `u`, where `rest` follows `u`. -/
def lexeme (u : CodeUnit) (rest : Text) : TokenKind × Text :=
  if isLetter u then
    (.ofWord (u :: rest.takeWhile isLetter), u :: rest.takeWhile isLetter)
  else if isDigit u then (.int, u :: rest.takeWhile isDigit)
  else if u == unit '=' && rest.head? == some (unit '=') then (.eq, utf16 "==")
  else if u == unit '!' && rest.head? == some (unit '=') then (.notEq, utf16 "!=")
  else (.ofSymbol u, [u])

theorem lexeme_ne_nil (u : CodeUnit) (rest : Text) : (lexeme u rest).2 ≠ [] := by
  unfold lexeme
  split
  · exact List.cons_ne_nil _ _
  split
  · exact List.cons_ne_nil _ _
  split
  · decide
  split
  · decide
  · exact List.cons_ne_nil _ _

/-- No unit is lost or changed: the literal is a beginning of the text. -/
theorem lexeme_isPrefix (u : CodeUnit) (rest : Text) : (lexeme u rest).2 <+: u :: rest := by
  have run (p : CodeUnit → Bool) : u :: rest.takeWhile p <+: u :: rest :=
    ⟨rest.dropWhile p, by rw [List.cons_append, List.takeWhile_append_dropWhile]⟩
  have pair {v : CodeUnit} (h : (u == v && rest.head? == some (unit '=')) = true) :
      [v, unit '='] <+: u :: rest := by
    obtain ⟨first, second⟩ := (Bool.and_eq_true _ _).mp h
    obtain ⟨tail, rfl⟩ := List.head?_eq_some_iff.mp (eq_of_beq second)
    rw [eq_of_beq first]
    exact ⟨tail, rfl⟩
  unfold lexeme
  split
  · exact run isLetter
  split
  · exact run isDigit
  split
  · exact pair ‹_›
  split
  · exact pair ‹_›
  · exact ⟨rest, rfl⟩

/-- A text that is being read: what was read, the last unit first, what is still to be
read, and where that starts. -/
structure Scanner where
  behind : Text
  rest : Text
  position : Cursor
deriving DecidableEq, Repr

namespace Scanner

def ofText (t : Text) : Scanner := ⟨[], t, .zero⟩

/-- The unit so far ahead, or so far behind. -/
def peek (s : Scanner) : Int → Option CodeUnit
  | .ofNat ahead => s.rest[ahead]?
  | .negSucc back => s.behind[back]?

/-- Moves past `taken`, a beginning of what is still to be read. -/
def moveOn (s : Scanner) (taken : Text) : Scanner :=
  ⟨taken.reverse ++ s.behind, s.rest.drop taken.length, s.position.after taken⟩

def atEnd (s : Scanner) : Bool := s.rest.isEmpty

def advance (s : Scanner) : Option CodeUnit × Scanner :=
  match s.rest with
  | [] => (none, s)
  | u :: _ => (some u, s.moveOn [u])

/-- Takes the longest run of units that satisfy `p`. -/
def consumeWhile (s : Scanner) (p : CodeUnit → Bool) : Text × Scanner :=
  (s.rest.takeWhile p, s.moveOn (s.rest.takeWhile p))

/-- Moving on loses nothing of the text. -/
theorem moveOn_text (s : Scanner) (taken : Text) (begins : taken <+: s.rest) :
    (s.moveOn taken).behind.reverse ++ (s.moveOn taken).rest = s.behind.reverse ++ s.rest := by
  obtain ⟨tail, split⟩ := begins
  simp [moveOn, ← split]

theorem rest_consumeWhile (s : Scanner) (p : CodeUnit → Bool) :
    (s.consumeWhile p).2.rest = s.rest.dropWhile p := by
  have split : s.rest.takeWhile p ++ s.rest.dropWhile p = s.rest :=
    List.takeWhile_append_dropWhile
  calc s.rest.drop (s.rest.takeWhile p).length
      = (s.rest.takeWhile p ++ s.rest.dropWhile p).drop (s.rest.takeWhile p).length := by
        rw [split]
    _ = s.rest.dropWhile p := List.drop_left

/-- The token at the head of a scanner that stands on no space. -/
def readToken (s : Scanner) : Token × Scanner :=
  match s.rest with
  | [] => (.endOfInput s.position, s)
  | u :: rest =>
    let (kind, literal) := lexeme u rest
    (⟨kind, literal, s.position⟩, s.moveOn literal)

/-- At the end of the text every further token is the same end of input. -/
def nextToken (s : Scanner) : Token × Scanner :=
  (s.consumeWhile isSpace).2.readToken

/-- The next `n` tokens. -/
def take (s : Scanner) : Nat → List Token
  | 0 => []
  | n + 1 => s.nextToken.1 :: s.nextToken.2.take n

/-- The tokens up to the end of input, of at most `fuel` units of text. -/
def tokens : Nat → Scanner → List Token
  | 0, s => [s.nextToken.1]
  | fuel + 1, s =>
    if s.nextToken.1.kind = .eof then [s.nextToken.1]
    else s.nextToken.1 :: tokens fuel s.nextToken.2

end Scanner

/-- All tokens of a text. Every token but the last takes at least one unit, so the
length of the text is fuel enough. -/
def tokenize (t : Text) : List Token := Scanner.tokens t.length (.ofText t)

end Monkey
