import Mathlib.Data.List.Chain
import Monkey.Proofs.Token.Tokenization

/-! Tokens set anew. The literals of a token list are written down in order with blanks around them.
Most tokens may touch; where two of them would run together, a blank has to stand between. Then
the text reads as those tokens again. -/
namespace Monkey

theorem eq_false_of_excludes {p q : Bool} (excludes : p = true → q = false) (holds : q = true) :
    p = false := by
  apply Bool.eq_false_iff.mpr
  intro both
  rw [excludes both] at holds
  cases holds

namespace TokenKind

/-- Names and keywords, which are runs of letters. -/
def IsLettered (k : TokenKind) : Prop := k ∈ ident :: words.map (·.2)

instance (k : TokenKind) : Decidable k.IsLettered := inferInstanceAs (Decidable (_ ∈ _))

/-- The symbols that a pair starts with. -/
def StartsPair (k : TokenKind) : Prop := k = assign ∨ k = bang

instance (k : TokenKind) : Decidable k.StartsPair := inferInstanceAs (Decidable (_ ∨ _))

/-- Without a blank between them, two such tokens run together. -/
def Clings (k l : TokenKind) : Prop :=
  k.IsLettered ∧ l.IsLettered ∨ k = int ∧ l = int ∨ k.StartsPair ∧ (l = assign ∨ l = eq)

instance (k l : TokenKind) : Decidable (k.Clings l) := inferInstanceAs (Decidable (_ ∨ _))

/-- The unit does not go on with a token of the kind. -/
structure EndsBefore (k : TokenKind) (u : CodeUnit) : Prop where
  word : k.IsLettered → isLetter u = false
  number : k = int → isDigit u = false
  single : k.StartsPair → u ≠ unit '='

namespace EndsBefore

variable {k : TokenKind}

theorem of_letter (letter : isLetter u = true) (other : ¬k.IsLettered) : k.EndsBefore u where
  word lettered := absurd lettered other
  number _ := eq_false_of_excludes not_letter_of_digit letter
  single _ := by
    rintro rfl
    exact absurd letter (by decide)

theorem of_digit (digit : isDigit u = true) (other : k ≠ int) : k.EndsBefore u where
  word _ := not_letter_of_digit digit
  number isInt := absurd isInt other
  single _ := by
    rintro rfl
    exact absurd digit (by decide)

theorem of_space (blank : isSpace u = true) : k.EndsBefore u where
  word _ := eq_false_of_excludes not_space_of_letter blank
  number _ := eq_false_of_excludes not_space_of_digit blank
  single _ := by
    rintro rfl
    exact absurd blank (by decide)

end EndsBefore
end TokenKind

theorem isLettered_of_mem (listed : (w, kind) ∈ TokenKind.words) : kind.IsLettered :=
  List.mem_cons_of_mem _ (List.mem_map.mpr ⟨(w, kind), listed, rfl⟩)

namespace Exact

/-- A literal is as exact before any other text that does not go on with it. -/
theorem anew (exact : Exact rest kind x) (stops : ∀ u ∈ rest'.head?, kind.EndsBefore u) :
    Exact rest' kind x := by
  cases exact with
  | keyword listed =>
    exact .keyword listed fun u head => (stops u head).word (isLettered_of_mem listed)
  | name isName => exact .name isName fun u head => (stops u head).word List.mem_cons_self
  | number numeral => exact .number numeral fun u head => (stops u head).number rfl
  | equal => exact .equal
  | unequal => exact .unequal
  | symbol listed =>
    exact .symbol listed fun opens head => (stops _ head).single opens rfl
  | illegal solid noLetter noDigit unlisted => exact .illegal solid noLetter noDigit unlisted

/-- Tokens that do not cling may touch. -/
theorem endsBefore {k : TokenKind} (exact : Exact rest kind x) (head : u ∈ x.head?)
    (loose : ¬k.Clings kind) : k.EndsBefore u := by
  have member : u ∈ x := List.mem_of_mem_head? head
  cases exact with
  | keyword listed =>
    refine .of_letter ((letters_of_mem listed).2 u member) fun lettered => ?_
    exact loose (.inl ⟨lettered, isLettered_of_mem listed⟩)
  | name isName =>
    refine .of_letter (isName.letters u member) fun lettered => ?_
    exact loose (.inl ⟨lettered, List.mem_cons_self⟩)
  | number numeral =>
    refine .of_digit (numeral.digits u member) fun isInt => ?_
    exact loose (.inr (.inl ⟨isInt, rfl⟩))
  | equal =>
    obtain rfl : unit '=' = u := Option.some.inj head
    exact ⟨fun _ => by decide, fun _ => by decide, fun opens _ =>
      loose (.inr (.inr ⟨opens, .inr rfl⟩))⟩
  | unequal =>
    obtain rfl : unit '!' = u := Option.some.inj head
    exact ⟨fun _ => by decide, fun _ => by decide, fun _ => by decide⟩
  | symbol listed =>
    obtain rfl := List.mem_singleton.mp member
    obtain ⟨-, noLetter, noDigit⟩ := class_of_mem listed
    refine ⟨fun _ => noLetter, fun _ => noDigit, fun opens same => loose ?_⟩
    have kind := (ofSymbol_of_mem listed).1
    rw [same] at kind
    exact .inr (.inr ⟨opens, .inl kind.symm⟩)
  | illegal _ noLetter noDigit unlisted =>
    obtain rfl := List.mem_singleton.mp member
    exact ⟨fun _ => noLetter, fun _ => noDigit, fun _ => unlisted ('=', .assign) (by decide)⟩

end Exact

/-- A way to set tokens: the blanks before each of them and behind the last one, and none missing
where two tokens would run together. -/
structure Spacing (ts : List Token) where
  spaced : List (Text × Token)
  ending : Text
  tokens : spaced.map (·.2) = ts
  blanks : ∀ x ∈ spaced, x.1.all isSpace = true
  blanksBehind : ending.all isSpace = true
  apart : spaced.IsChain fun x y => x.2.kind.Clings y.2.kind → y.1 ≠ []

/-- The literals of tokens, each behind its blanks. -/
def typeset : List (Text × Token) → Text → Text
  | [], ending => ending
  | (blanks, x) :: spaced, ending => blanks ++ (x.literal ++ typeset spaced ending)

def Spacing.text (spacing : Spacing ts) : Text := typeset spacing.spaced spacing.ending

section Typeset

variable {ending : Text} {spaced : List (Text × Token)}
  (behind : ending.all isSpace = true)
include behind

/-- The text starts with a blank, or with a token that has none before it. -/
theorem head_typeset (blanks : ∀ x ∈ spaced, x.1.all isSpace = true)
    (exact : ∀ x ∈ spaced, ∃ rest, Exact rest x.2.kind x.2.literal)
    (head : u ∈ (typeset spaced ending).head?) :
    isSpace u = true ∨ ∃ y ∈ spaced.head?, y.1 = [] ∧ u ∈ y.2.literal.head? := by
  cases spaced with
  | nil => exact .inl (List.all_eq_true.mp behind u (List.mem_of_mem_head? head))
  | cons y spaced =>
    obtain ⟨run, y⟩ := y
    cases run with
    | cons v run =>
      obtain rfl : v = u := Option.some.inj head
      exact .inl (List.all_eq_true.mp (blanks _ List.mem_cons_self) v List.mem_cons_self)
    | nil =>
      obtain ⟨rest, cut⟩ := exact _ List.mem_cons_self
      obtain ⟨v, z, literal, -⟩ := cut.solid
      refine .inr ⟨_, rfl, rfl, ?_⟩
      rw [typeset, literal] at head
      rw [literal]
      exact head

/-- Tokens that are set apart are read again. -/
theorem reads_typeset (blanks : ∀ x ∈ spaced, x.1.all isSpace = true)
    (apart : spaced.IsChain fun x y => x.2.kind.Clings y.2.kind → y.1 ≠ [])
    (exact : ∀ x ∈ spaced, ∃ rest, Exact rest x.2.kind x.2.literal) (c : Cursor) :
    ∃ us c', Reads c (typeset spaced ending) us c' [] ∧
      lexemes us = lexemes (spaced.map (·.2)) := by
  induction spaced generalizing c with
  | nil =>
    have read : Reads c (ending ++ []) [] (c.after ending) [] :=
      .spaces ending (List.all_eq_true.mp behind) .done
    rw [List.append_nil] at read
    exact ⟨[], c.after ending, read, rfl⟩
  | cons x spaced ih =>
    obtain ⟨run, x⟩ := x
    obtain ⟨blank, blanks⟩ := List.forall_mem_cons.mp blanks
    obtain ⟨⟨rest, cut⟩, exact⟩ := List.forall_mem_cons.mp exact
    obtain ⟨next, apart⟩ := List.isChain_cons.mp apart
    have stops : ∀ u ∈ (typeset spaced ending).head?, x.kind.EndsBefore u := by
      intro u head
      rcases head_typeset behind blanks exact head with blank | ⟨y, first, touching, begins⟩
      · exact .of_space blank
      · obtain ⟨rest', cut'⟩ := exact y (List.mem_of_mem_head? first)
        exact cut'.endsBefore begins fun clings => next y first clings touching
    obtain ⟨us, c', read, same⟩ := ih blanks apart exact ((c.after run).after x.literal)
    refine ⟨⟨x.kind, x.literal, c.after run⟩ :: us, c', ?_, ?_⟩
    · refine .spaces run (List.all_eq_true.mp blank) ?_
      exact ((cut.anew stops).reads (c.after run)).append read
    · exact congrArg (x.lexeme :: ·) same

end Typeset

/-- Tokens of a text that are set anew are read again. -/
theorem Spacing.lexemes_tokenize (spacing : Spacing (tokenize source).dropLast) :
    lexemes (tokenize spacing.text) = lexemes (tokenize source) := by
  obtain ⟨ts, c, read, tokens⟩ := tokenize_reads source
  have set : spacing.spaced.map (·.2) = ts := by
    rw [spacing.tokens, tokens, List.dropLast_concat]
  have exact : ∀ x ∈ spacing.spaced, ∃ rest, Exact rest x.2.kind x.2.literal := by
    intro x member
    have listed : x.2 ∈ ts := set ▸ List.mem_map_of_mem member
    have real := (read.cut _ listed).kind_ne_eof
    exact ⟨_, (tokenize_tokenization source).exact x.2 (by simp [tokens, listed]) real⟩
  obtain ⟨us, c', read', same⟩ :=
    reads_typeset spacing.blanksBehind spacing.blanks spacing.apart exact .zero
  rw [Spacing.text, tokenize_eq read', tokens, ← set, lexemes, lexemes, List.map_append,
    List.map_append]
  exact congrArg (· ++ [(TokenKind.eof, [])]) same

end Monkey
