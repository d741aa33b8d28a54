import Monkey.Text.Basic

/-! Tokens: their kinds, their fixed spellings and where they start. -/
namespace Monkey

/-- A place in a text, counted from zero in code units. -/
structure Cursor where
  line : Nat
  col : Nat
  offset : Nat
deriving DecidableEq, Repr

namespace Cursor

def zero : Cursor := ⟨0, 0, 0⟩

instance : Inhabited Cursor := ⟨zero⟩

/-- Only a line feed starts a new line. -/
def past (c : Cursor) (u : CodeUnit) : Cursor :=
  if u == unit '\n' then ⟨c.line + 1, 0, c.offset + 1⟩ else ⟨c.line, c.col + 1, c.offset + 1⟩

def after (c : Cursor) (t : Text) : Cursor := t.foldl past c

theorem after_append (c : Cursor) (s t : Text) : c.after (s ++ t) = (c.after s).after t :=
  List.foldl_append

theorem offset_after (c : Cursor) (t : Text) : (c.after t).offset = c.offset + t.length := by
  induction t generalizing c with
  | nil => rfl
  | cons u t ih =>
    have step : (c.past u).offset = c.offset + 1 := by unfold past; split <;> rfl
    rw [after, List.foldl_cons, ← after, ih, step, List.length_cons]
    omega

end Cursor

inductive TokenKind where
  | illegal | eof | ident | int
  | assign | plus | minus | bang | asterisk | slash | lt | gt | eq | notEq
  | comma | semicolon | lparen | rparen | lbrace | rbrace
  | fnWord | letWord | trueWord | falseWord | ifWord | elseWord | returnWord
deriving DecidableEq, Repr, Inhabited

namespace TokenKind

/-- The name under which a kind is listed. -/
def name : TokenKind → Text
  | illegal => utf16 "Illegal"
  | eof => utf16 "Eof"
  | ident => utf16 "Ident"
  | int => utf16 "Int"
  | assign => utf16 "Assign"
  | plus => utf16 "Plus"
  | minus => utf16 "Minus"
  | bang => utf16 "Bang"
  | asterisk => utf16 "Asterisk"
  | slash => utf16 "Slash"
  | lt => utf16 "Lt"
  | gt => utf16 "Gt"
  | eq => utf16 "Eq"
  | notEq => utf16 "NotEq"
  | comma => utf16 "Comma"
  | semicolon => utf16 "Semicolon"
  | lparen => utf16 "LParen"
  | rparen => utf16 "RParen"
  | lbrace => utf16 "LBrace"
  | rbrace => utf16 "RBrace"
  | fnWord => utf16 "Function"
  | letWord => utf16 "Let"
  | trueWord => utf16 "True"
  | falseWord => utf16 "False"
  | ifWord => utf16 "If"
  | elseWord => utf16 "Else"
  | returnWord => utf16 "Return"

def all : List TokenKind :=
  [illegal, eof, ident, int, assign, plus, minus, bang, asterisk, slash, lt, gt, eq, notEq,
    comma, semicolon, lparen, rparen, lbrace, rbrace, fnWord, letWord, trueWord, falseWord,
    ifWord, elseWord, returnWord]

/-- The kind listed under a name. -/
def ofName? (n : Text) : Option TokenKind := all.find? (·.name == n)

/-- A word that is no keyword is an identifier. -/
def ofWord (w : Text) : TokenKind :=
  if w == utf16 "fn" then fnWord
  else if w == utf16 "let" then letWord
  else if w == utf16 "true" then trueWord
  else if w == utf16 "false" then falseWord
  else if w == utf16 "if" then ifWord
  else if w == utf16 "else" then elseWord
  else if w == utf16 "return" then returnWord
  else ident

/-- The kind of a symbol of one unit. -/
def ofSymbol (u : CodeUnit) : TokenKind :=
  if u == unit '=' then assign
  else if u == unit '+' then plus
  else if u == unit '-' then minus
  else if u == unit '!' then bang
  else if u == unit '*' then asterisk
  else if u == unit '/' then slash
  else if u == unit '<' then lt
  else if u == unit '>' then gt
  else if u == unit ',' then comma
  else if u == unit ';' then semicolon
  else if u == unit '(' then lparen
  else if u == unit ')' then rparen
  else if u == unit '\x7b' then lbrace
  else if u == unit '\x7d' then rbrace
  else illegal

/-- How a diagnostic names the kind it looked for. -/
def label : TokenKind → Text
  | ident => utf16 "identifier"
  | int => utf16 "integer"
  | eof => utf16 "end of input"
  | illegal => utf16 "'illegal'"
  | assign => utf16 "'='"
  | plus => utf16 "'+'"
  | minus => utf16 "'-'"
  | bang => utf16 "'!'"
  | asterisk => utf16 "'*'"
  | slash => utf16 "'/'"
  | lt => utf16 "'<'"
  | gt => utf16 "'>'"
  | eq => utf16 "'=='"
  | notEq => utf16 "'!='"
  | comma => utf16 "','"
  | semicolon => utf16 "';'"
  | lparen => utf16 "'('"
  | rparen => utf16 "')'"
  | lbrace => utf16 "'\x7b'"
  | rbrace => utf16 "'\x7d'"
  | fnWord => utf16 "'function'"
  | letWord => utf16 "'let'"
  | trueWord => utf16 "'true'"
  | falseWord => utf16 "'false'"
  | ifWord => utf16 "'if'"
  | elseWord => utf16 "'else'"
  | returnWord => utf16 "'return'"

end TokenKind

structure Token where
  kind : TokenKind
  literal : Text
  start : Cursor
deriving DecidableEq, Repr, Inhabited

namespace Token

def endOfInput (at_ : Cursor) : Token := ⟨.eof, [], at_⟩

/-- How a diagnostic names a token it met. -/
def describe (t : Token) : Text :=
  if t.kind = .eof then utf16 "end of input" else utf16 "'" ++ t.literal ++ utf16 "'"

end Token
end Monkey
