import Monkey.Grammar.Program

/-! What the steps of the parser do to its state, for runs that are known to end well and
for every way a run can end. A form is opened by these lemmas alone. -/
namespace Monkey

/-- The kind of the next token; past the last token it is the end of input. -/
def kindAhead : List Token → TokenKind
  | [] => .eof
  | t :: _ => t.kind

theorem exists_cons_of_kindAhead {ts : List Token} (kind : kindAhead ts = k) (real : k ≠ .eof) :
    ∃ t rest, ts = t :: rest ∧ t.kind = k := by
  cases ts with
  | nil => exact absurd kind.symm real
  | cons t rest => exact ⟨t, rest, rfl, kind⟩

namespace ParserState

/-- The state with other tokens still to be read. -/
def reading (s : ParserState) (ts : List Token) : ParserState :=
  { s with stream := { s.stream with tokens := ts } }

variable (s : ParserState)

@[simp] theorem tokens_reading (ts : List Token) : (s.reading ts).stream.tokens = ts := rfl

@[simp] theorem reading_advance (ts : List Token) :
    { s.reading ts with stream := (s.reading ts).stream.advance } = s.reading ts.tail := rfl

theorem current_kind : s.stream.current.kind = kindAhead s.stream.tokens := by
  unfold TokenStream.current
  cases s.stream.tokens <;> rfl

theorem peek_kind : s.stream.peek.kind = kindAhead s.stream.tokens.tail := by
  unfold TokenStream.peek
  cases s.stream.tokens.tail <;> rfl

@[simp] theorem current_reading_cons (t : Token) (ts : List Token) :
    (s.reading (t :: ts)).stream.current = t := rfl

@[simp] theorem peek_reading_kind (t : Token) (ts : List Token) :
    (s.reading (t :: ts)).stream.peek.kind = kindAhead ts := peek_kind _

@[simp] theorem peek_reading_cons (t u : Token) (ts : List Token) :
    (s.reading (t :: u :: ts)).stream.peek = u := rfl

end ParserState

namespace Parser

section Success

variable {α β : Type} {s s' : ParserState}

theorem bind_ok {p : Parser α} {q : α → Parser β} {b : β} (run : (p >>= q) s = .ok b s') :
    ∃ a middle, p s = .ok a middle ∧ q a middle = .ok b s' := by
  rw [run_bind] at run
  cases first : p s with
  | ok a middle => exact ⟨a, middle, rfl, by simpa only [first] using run⟩
  | error e middle => simp only [first] at run; cases run

theorem run_then {p : Parser α} {q : α → Parser β} {a : α} {middle : ParserState}
    (first : p s = .ok a middle) : (p >>= q) s = q a middle := by
  rw [run_bind, first]

end Success

/-- Every way a run from `s` can end. -/
def Ensures (p : Parser α) (s : ParserState) (ok : α → ParserState → Prop)
    (stop : Interrupt → ParserState → Prop) : Prop :=
  match p s with
  | .ok a s' => ok a s'
  | .error e s' => stop e s'

section Ensures

variable {α β : Type} {s : ParserState} {ok ok' : α → ParserState → Prop}
  {stop stop' : Interrupt → ParserState → Prop}

theorem Ensures.weaken {p : Parser α} (run : Ensures p s ok stop)
    (good : ∀ a s', ok a s' → ok' a s') (bad : ∀ e s', stop e s' → stop' e s') :
    Ensures p s ok' stop' := by
  unfold Ensures at run ⊢
  cases result : p s with
  | ok a s' => simp only [result] at run ⊢; exact good a s' run
  | error e s' => simp only [result] at run ⊢; exact bad e s' run

@[simp] theorem ensures_bind {p : Parser α} {q : α → Parser β} {ok : β → ParserState → Prop} :
    Ensures (p >>= q) s ok stop ↔ Ensures p s (fun a s' => Ensures (q a) s' ok stop) stop := by
  unfold Ensures
  rw [run_bind]
  cases p s <;> rfl

@[simp] theorem ensures_current {ok : Token → ParserState → Prop} :
    Ensures current s ok stop ↔ ok s.stream.current s := Iff.rfl

@[simp] theorem ensures_peek {ok : Token → ParserState → Prop} :
    Ensures peek s ok stop ↔ ok s.stream.peek s := Iff.rfl

@[simp] theorem ensures_advance {ok : Unit → ParserState → Prop} :
    Ensures advance s ok stop ↔ ok () (s.reading s.stream.tokens.tail) := Iff.rfl

@[simp] theorem ensures_ite {c : Prop} [Decidable c] {p q : Parser α} :
    Ensures (if c then p else q) s ok stop ↔
      (c → Ensures p s ok stop) ∧ (¬c → Ensures q s ok stop) := by
  split <;> simp_all

end Ensures
end Parser
end Monkey
