import Monkey.Grammar.Diagnostic
import Monkey.Token.Stream

/-! Steps of the parser. It looks one token ahead and never goes back. A step that
cannot go on records one diagnostic and gives up the statement it is in. -/
namespace Monkey

structure ParserState where
  stream : TokenStream
  diagnostics : List Diagnostic
  /-- How many statements were given up. -/
  omitted : Nat
deriving DecidableEq, Repr

/-- What keeps a token list from having a parse at all. -/
inductive ParseFault where
  | unreadable (literal : Text)
  | tooDeep
deriving DecidableEq, Repr

inductive Interrupt where
  | recorded
  | fault (f : ParseFault)
deriving DecidableEq, Repr

abbrev Parser := EStateM Interrupt ParserState

namespace Parser

def current : Parser Token := return (← get).stream.current

def peek : Parser Token := return (← get).stream.peek

def advance : Parser Unit := modify fun s => { s with stream := s.stream.advance }

def fail (f : ParseFault) : Parser α := throw (.fault f)

/-- Records a diagnostic and gives up. -/
def reject (problem : Problem) (found : Token) : Parser α := do
  modify fun s => { s with diagnostics := s.diagnostics ++ [⟨problem, found⟩] }
  throw .recorded

/-- Moves to the next token if it has the kind; otherwise nothing is consumed. -/
def expect (kind : TokenKind) : Parser Unit := do
  let next ← peek
  if next.kind = kind then advance else reject (.expected kind) next

def skipSemicolon : Parser Unit := do
  if (← peek).kind = .semicolon then advance

/-- Runs a statement and counts it when it is given up. -/
def orOmit (p : Parser α) : Parser (Option α) := fun s =>
  match p s with
  | .ok a s' => .ok (some a) s'
  | .error .recorded s' => .ok none { s' with omitted := s'.omitted + 1 }
  | .error (.fault f) s' => .error (.fault f) s'

section Runs

variable {α β : Type} (s : ParserState)

theorem run_bind (p : Parser α) (q : α → Parser β) :
    (p >>= q) s = match p s with
      | .ok a s' => q a s'
      | .error e s' => .error e s' := by
  simp only [bind, EStateM.bind]
  cases p s <;> rfl

theorem run_current : current s = .ok s.stream.current s := rfl

theorem run_peek : peek s = .ok s.stream.peek s := rfl

theorem run_advance : advance s = .ok () { s with stream := s.stream.advance } := rfl

theorem run_reject (problem : Problem) (found : Token) :
    (reject problem found : Parser α) s =
      .error .recorded { s with diagnostics := s.diagnostics ++ [⟨problem, found⟩] } := rfl

theorem run_expect (kind : TokenKind) :
    expect kind s =
      if s.stream.peek.kind = kind then .ok () { s with stream := s.stream.advance }
      else .error .recorded
        { s with diagnostics := s.diagnostics ++ [⟨.expected kind, s.stream.peek⟩] } := by
  unfold expect
  rw [run_bind, run_peek]
  dsimp only
  split <;> rfl

end Runs

end Parser
end Monkey
