import Monkey.Token.Basic

/-! A finite list of tokens read with one token of lookahead. Past the last one the
end of input stands for ever. -/
namespace Monkey

/-- The current token is the first of `tokens`. -/
structure TokenStream where
  tokens : List Token
  finish : Cursor
deriving DecidableEq, Repr

namespace TokenStream

/-- The end of input stands where the last token starts. -/
def ofTokens (ts : List Token) : TokenStream :=
  ⟨ts, (ts.getLast?.map (·.start)).getD .zero⟩

def current (s : TokenStream) : Token := s.tokens.headD (.endOfInput s.finish)

def peek (s : TokenStream) : Token := s.tokens.tail.headD (.endOfInput s.finish)

def advance (s : TokenStream) : TokenStream := { s with tokens := s.tokens.tail }

def atEnd (s : TokenStream) : Bool := s.current.kind = .eof

end TokenStream
end Monkey
