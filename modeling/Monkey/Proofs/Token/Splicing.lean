import Monkey.Proofs.Token.Reading

/-! A text behind another text. Behind a text whose last token is a semicolon every text reads as
it does on its own, with its places counted on from where the first one ends. -/
namespace Monkey

/-- The place `c` of a text that starts at `base`. Columns are shifted on the first line only. -/
def Cursor.translate (base c : Cursor) : Cursor :=
  ⟨base.line + c.line, if c.line = 0 then base.col + c.col else c.col, base.offset + c.offset⟩

/-- The token of a text that starts at `base`. -/
def Token.translate (base : Cursor) (t : Token) : Token :=
  { t with start := base.translate t.start }

/-- The last token, if there is one, is a semicolon. -/
def Closed (ts : List Token) : Prop := ∀ x ∈ ts.getLast?, x.kind = .semicolon

namespace Cursor

theorem translate_past (base c : Cursor) (u : CodeUnit) :
    base.translate (c.past u) = (base.translate c).past u := by
  unfold past
  split
  · simp [translate, Nat.add_assoc]
  · by_cases first : c.line = 0
    · simp [translate, first, Nat.add_assoc]
    · simp [translate, first, Nat.add_assoc]

theorem translate_after (base c : Cursor) (t : Text) :
    base.translate (c.after t) = (base.translate c).after t := by
  induction t generalizing c with
  | nil => rfl
  | cons u t ih =>
    rw [after, List.foldl_cons, ← after, ih, translate_past]
    rfl

end Cursor

theorem Closed.tail (closed : Closed (x :: ts)) : Closed ts := by
  cases ts with
  | nil => nofun
  | cons y ts => simpa only [Closed, List.getLast?_cons_cons] using closed

theorem Closed.rest (closed : Closed (w ++ ts)) : Closed ts := by
  induction w with
  | nil => exact closed
  | cons x w ih => exact ih closed.tail

theorem Closed.append (first : Closed ts) (last : Closed us) : Closed (ts ++ us) := by
  intro x member
  rw [List.getLast?_append, Option.mem_def, Option.or_eq_some_iff] at member
  rcases member with member | ⟨-, member⟩
  · exact last x member
  · exact first x member

theorem takeWhile_append_of_rest {p : CodeUnit → Bool} {t tail : Text}
    (split : t = t.takeWhile p ++ tail) (more : tail ≠ []) (rest : Text) :
    (t ++ rest).takeWhile p = t.takeWhile p := by
  have short : (t.takeWhile p).length ≠ t.length := by
    intro same
    have lengths := congrArg List.length split
    rw [List.length_append, same] at lengths
    exact more (List.length_eq_zero_iff.mp (by omega))
  rw [List.takeWhile_append, if_neg short]

/-- A token that something follows is cut off there, whatever comes later. -/
theorem lexeme_append (cut : lexeme u t = (kind, literal)) (split : u :: t = literal ++ tail)
    (more : tail ≠ []) (rest : Text) : lexeme u (t ++ rest) = (kind, literal) := by
  have run (p : CodeUnit → Bool) (same : literal = u :: t.takeWhile p) :
      (t ++ rest).takeWhile p = t.takeWhile p := by
    subst same
    exact takeWhile_append_of_rest (List.cons.inj split).2 more rest
  have ahead : (t ++ rest).head? = t.head? := by
    cases t with
    | cons v t => rfl
    | nil =>
      have taken : literal ≠ [] := by simpa [cut] using lexeme_ne_nil u []
      have lengths := congrArg List.length split
      have positive := List.length_pos_iff.mpr taken
      have positive' := List.length_pos_iff.mpr more
      simp only [List.length_cons, List.length_nil, List.length_append] at lengths
      omega
  unfold lexeme at cut ⊢
  rw [ahead]
  split
  next letter =>
    rw [if_pos letter, Prod.mk.injEq] at cut
    rw [run isLetter cut.2.symm]
    exact Prod.ext cut.1 cut.2
  next noLetter =>
    rw [if_neg noLetter] at cut
    split
    next digit =>
      rw [if_pos digit, Prod.mk.injEq] at cut
      rw [run isDigit cut.2.symm]
      exact Prod.ext cut.1 cut.2
    next noDigit =>
      rw [if_neg noDigit] at cut
      exact cut

/-- A semicolon is a token by itself. -/
theorem lexeme_semicolon (cut : lexeme u t = (.semicolon, literal)) (rest : Text) :
    lexeme u rest = (.semicolon, literal) := by
  have whole := lexeme_cut u t
  rw [cut] at whole
  obtain rfl : literal = [unit ';'] := whole.eq_spelling rfl
  obtain ⟨after, split⟩ := lexeme_isPrefix u t
  rw [cut] at split
  obtain rfl := (List.cons.inj split).1
  rfl

/-- No other token ends in a semicolon. -/
theorem Cut.eq_semicolon (cut : Cut kind literal) (last : literal.getLast? = some (unit ';')) :
    kind = .semicolon := by
  have member : unit ';' ∈ literal := List.mem_of_getLast? last
  cases cut with
  | word _ letters => exact absurd (letters _ member) (by decide)
  | number numeral => exact absurd (numeral.digits _ member) (by decide)
  | equal => exact absurd last (by decide)
  | unequal => exact absurd last (by decide)
  | symbol u =>
    obtain rfl := List.mem_singleton.mp member
    rfl

theorem Closed.cons (nonempty : ts ≠ []) (closed : Closed ts) : Closed (x :: ts) := by
  obtain ⟨y, ts, rfl⟩ := List.exists_cons_of_ne_nil nonempty
  simpa only [Closed, List.getLast?_cons_cons] using closed

namespace Reads

/-- A semicolon at the end of a text is its last token. -/
theorem closed (read : Reads c t ts c' []) (last : t.getLast? = some (unit ';')) :
    ts ≠ [] ∧ Closed ts := by
  generalize ended : ([] : Text) = left at read
  induction read with
  | done =>
    subst ended
    cases last
  | @space u t ts _ _ _ blank _ ih =>
    cases t with
    | nil =>
      obtain rfl : u = unit ';' := Option.some.inj last
      exact absurd blank (by decide)
    | cons v t => exact ih (List.getLast?_cons_cons.symm.trans last) ended
  | @token u t kind literal tail ts _ _ _ _ cut split read ih =>
    refine ⟨List.cons_ne_nil _ _, ?_⟩
    rw [split] at last
    cases tail with
    | nil =>
      subst ended
      cases read
      have whole := lexeme_cut u t
      rw [cut] at whole
      rintro _ ⟨⟩
      exact whole.eq_semicolon (List.append_nil literal ▸ last)
    | cons v tail =>
      rw [List.getLast?_append, List.getLast?_cons, Option.some_or] at last
      obtain ⟨nonempty, closed⟩ := ih (List.getLast?_cons.trans last) ended
      exact closed.cons nonempty

/-- A text that reads to its end with a semicolon as the last token reads so before any text. -/
theorem prolong (read : Reads c t ts c' []) (closed : Closed ts) (rest : Text) :
    Reads c (t ++ rest) ts c' rest := by
  generalize ended : ([] : Text) = left at read
  induction read with
  | done =>
    subst ended
    exact .done
  | space blank _ ih => exact .space blank (ih closed ended)
  | @token u t kind literal tail ts _ _ _ solid cut split read ih =>
    have further := ih closed.tail ended
    have split' : u :: (t ++ rest) = literal ++ (tail ++ rest) := by
      rw [← List.cons_append, split, List.append_assoc]
    have cut' : lexeme u (t ++ rest) = (kind, literal) := by
      cases ts with
      | nil =>
        have last : kind = .semicolon := closed _ rfl
        subst last
        exact lexeme_semicolon cut _
      | cons x ts =>
        -- a token is still to come, so the text does not end here
        have more : tail ≠ [] := by
          rintro rfl
          cases read
        exact lexeme_append cut split more rest
    exact .token solid cut' split' further

theorem translate (base : Cursor) (read : Reads c t ts c' rest) :
    Reads (base.translate c) t (ts.map (·.translate base)) (base.translate c') rest := by
  induction read with
  | done => exact .done
  | space blank _ ih =>
    rw [Cursor.translate_past] at ih
    exact .space blank ih
  | token solid cut split _ ih =>
    rw [Cursor.translate_after] at ih
    exact .token solid cut split ih

/-- Two texts one behind the other, of which the first ends in a semicolon. -/
theorem splice (first : Reads .zero t ts c []) (closed : Closed ts)
    (second : Reads .zero t' us c' []) :
    Reads .zero (t ++ t') (ts ++ us.map (·.translate c)) (c.translate c') [] :=
  (first.prolong closed t').append (second.translate c)

end Reads
end Monkey
