import Monkey.Token.Lexer

/-! What a literal tells about the kind of its token, and the kind about the literal:
names, digit runs, and the symbols with one spelling each. -/
namespace Monkey

section Units

theorem isDigit_iff (u : CodeUnit) : isDigit u = true ↔ 48 ≤ u.toNat ∧ u.toNat ≤ 57 := by
  simp only [isDigit, Bool.and_eq_true, decide_eq_true_eq, UInt16.le_iff_toNat_le]
  exact Iff.rfl

theorem isLetter_iff (u : CodeUnit) : isLetter u = true ↔
    (97 ≤ u.toNat ∧ u.toNat ≤ 122 ∨ 65 ≤ u.toNat ∧ u.toNat ≤ 90) ∨ u.toNat = 95 := by
  simp only [isLetter, Bool.or_eq_true, Bool.and_eq_true, decide_eq_true_eq, beq_iff_eq,
    UInt16.le_iff_toNat_le, ← UInt16.toNat_inj]
  exact Iff.rfl

theorem isSpace_iff (u : CodeUnit) : isSpace u = true ↔
    ((u.toNat = 32 ∨ u.toNat = 10) ∨ u.toNat = 13) ∨ u.toNat = 9 := by
  simp only [isSpace, Bool.or_eq_true, beq_iff_eq, ← UInt16.toNat_inj]
  exact Iff.rfl

theorem not_letter_of_digit (digit : isDigit u = true) : isLetter u = false := by
  have range := (isDigit_iff u).mp digit
  apply Bool.eq_false_iff.mpr
  rw [ne_eq, isLetter_iff]
  omega

theorem not_space_of_digit (digit : isDigit u = true) : isSpace u = false := by
  have range := (isDigit_iff u).mp digit
  apply Bool.eq_false_iff.mpr
  rw [ne_eq, isSpace_iff]
  omega

theorem not_space_of_letter (letter : isLetter u = true) : isSpace u = false := by
  have range := (isLetter_iff u).mp letter
  apply Bool.eq_false_iff.mpr
  rw [ne_eq, isSpace_iff]
  omega

end Units

namespace TokenKind

def words : List (String × TokenKind) :=
  [("fn", fnWord), ("let", letWord), ("true", trueWord), ("false", falseWord), ("if", ifWord),
    ("else", elseWord), ("return", returnWord)]

def symbols : List (Char × TokenKind) :=
  [('=', assign), ('+', plus), ('-', minus), ('!', bang), ('*', asterisk), ('/', slash),
    ('<', lt), ('>', gt), (',', comma), (';', semicolon), ('(', lparen), (')', rparen),
    ('\x7b', lbrace), ('\x7d', rbrace)]

theorem ofWord_eq (w : Text) :
    ofWord w = words.foldr (fun p other => if w == utf16 p.1 then p.2 else other) ident := rfl

theorem ofSymbol_eq (u : CodeUnit) :
    ofSymbol u = symbols.foldr (fun p other => if u == unit p.1 then p.2 else other) illegal := rfl

/-- The first entry that passes the test decides. -/
theorem choice_cases (table : List (α × TokenKind)) (test : α → Bool) (other : TokenKind) :
    table.foldr (fun p rest => if test p.1 then p.2 else rest) other = other ∨
      ∃ p ∈ table, test p.1 = true ∧
        table.foldr (fun p rest => if test p.1 then p.2 else rest) other = p.2 := by
  induction table with
  | nil => exact .inl rfl
  | cons p table ih =>
    rw [List.foldr_cons]
    by_cases passes : test p.1 = true
    · rw [if_pos passes]
      exact .inr ⟨p, List.mem_cons_self, passes, rfl⟩
    · rw [if_neg passes]
      rcases ih with same | ⟨q, member, found⟩
      · exact .inl same
      · exact .inr ⟨q, List.mem_cons_of_mem p member, found⟩

theorem ofWord_cases (w : Text) :
    ofWord w = ident ∨ ∃ p ∈ words, w = utf16 p.1 ∧ ofWord w = p.2 := by
  rw [ofWord_eq]
  rcases choice_cases words (fun x => w == utf16 x) ident with none | ⟨p, member, same, kind⟩
  · exact .inl none
  · exact .inr ⟨p, member, eq_of_beq same, kind⟩

theorem ofSymbol_cases (u : CodeUnit) :
    ofSymbol u = illegal ∨ ∃ p ∈ symbols, u = unit p.1 ∧ ofSymbol u = p.2 := by
  rw [ofSymbol_eq]
  rcases choice_cases symbols (fun x => u == unit x) illegal with none | ⟨p, member, same, kind⟩
  · exact .inl none
  · exact .inr ⟨p, member, eq_of_beq same, kind⟩

theorem ofWord_mem (w : Text) : ofWord w ∈ ident :: words.map (·.2) := by
  rcases ofWord_cases w with plain | ⟨p, listed, -, same⟩
  · exact plain ▸ List.mem_cons_self
  · exact List.mem_cons_of_mem _ (List.mem_map.mpr ⟨p, listed, same.symm⟩)

theorem ofSymbol_mem (u : CodeUnit) : ofSymbol u ∈ illegal :: symbols.map (·.2) := by
  rcases ofSymbol_cases u with plain | ⟨p, listed, -, same⟩
  · exact plain ▸ List.mem_cons_self
  · exact List.mem_cons_of_mem _ (List.mem_map.mpr ⟨p, listed, same.symm⟩)

/-- The only text of a symbol or an operator. -/
def spelling? : TokenKind → Option Text
  | eq => some (utf16 "==")
  | notEq => some (utf16 "!=")
  | kind => (symbols.find? (·.2 = kind)).map fun p => [unit p.1]

end TokenKind

def keywords : List Text := TokenKind.words.map fun p => utf16 p.1

/-- A run of letters and underscores that is no keyword. -/
structure IsName (x : Text) : Prop where
  nonempty : x ≠ []
  letters : ∀ u ∈ x, isLetter u = true
  free : x ∉ keywords

structure IsNumeral (x : Text) : Prop where
  nonempty : x ≠ []
  digits : ∀ u ∈ x, isDigit u = true

theorem ofWord_eq_ident_iff (w : Text) : TokenKind.ofWord w = .ident ↔ w ∉ keywords := by
  constructor
  · intro plain member
    obtain ⟨p, listed, rfl⟩ := List.mem_map.mp member
    revert p
    decide
  · intro free
    rcases TokenKind.ofWord_cases w with plain | ⟨p, listed, rfl, -⟩
    · exact plain
    · exact absurd (List.mem_map.mpr ⟨p, listed, rfl⟩) free

/-- The five ways a token is cut. -/
inductive Cut : TokenKind → Text → Prop where
  | word : x ≠ [] → (∀ u ∈ x, isLetter u = true) → Cut (.ofWord x) x
  | number : IsNumeral x → Cut .int x
  | equal : Cut .eq (utf16 "==")
  | unequal : Cut .notEq (utf16 "!=")
  | symbol (u : CodeUnit) : Cut (.ofSymbol u) [u]

/-- The longest run from a unit on. -/
theorem forall_mem_run {p : CodeUnit → Bool} (head : p u = true) (rest : Text) :
    ∀ v ∈ u :: rest.takeWhile p, p v = true :=
  List.forall_mem_cons.mpr ⟨head, List.all_eq_true.mp List.all_takeWhile⟩

theorem lexeme_cut (u : CodeUnit) (rest : Text) : Cut (lexeme u rest).1 (lexeme u rest).2 := by
  unfold lexeme
  split
  · exact .word (List.cons_ne_nil _ _) (forall_mem_run ‹_› rest)
  split
  · exact .number ⟨List.cons_ne_nil _ _, forall_mem_run ‹_› rest⟩
  split
  · exact .equal
  split
  · exact .unequal
  · exact .symbol u

namespace Cut

theorem kind_ne_eof (cut : Cut k x) : k ≠ .eof := by
  cases cut with
  | word => exact fun ended => absurd (ended ▸ TokenKind.ofWord_mem x) (by decide)
  | number => decide
  | equal => decide
  | unequal => decide
  | symbol u => exact fun ended => absurd (ended ▸ TokenKind.ofSymbol_mem u) (by decide)

theorem isName (cut : Cut .ident x) : IsName x := by
  generalize kind : TokenKind.ident = k at cut
  cases cut with
  | word nonempty letters => exact ⟨nonempty, letters, (ofWord_eq_ident_iff x).mp kind.symm⟩
  | number => cases kind
  | equal => cases kind
  | unequal => cases kind
  | symbol u => exact absurd (kind ▸ TokenKind.ofSymbol_mem u) (by decide)

theorem isNumeral (cut : Cut .int x) : IsNumeral x := by
  generalize kind : TokenKind.int = k at cut
  cases cut with
  | word => exact absurd (kind ▸ TokenKind.ofWord_mem x) (by decide)
  | number numeral => exact numeral
  | equal => cases kind
  | unequal => cases kind
  | symbol u => exact absurd (kind ▸ TokenKind.ofSymbol_mem u) (by decide)

theorem eq_spelling (cut : Cut k x) (fixed : k.spelling? = some y) : x = y := by
  cases cut with
  | word =>
    have unspelled : ∀ w ∈ TokenKind.ident :: TokenKind.words.map (·.2), w.spelling? = none := by
      decide
    rw [unspelled _ (TokenKind.ofWord_mem x)] at fixed
    cases fixed
  | number => cases fixed
  | equal => exact Option.some.inj fixed
  | unequal => exact Option.some.inj fixed
  | symbol u =>
    rcases TokenKind.ofSymbol_cases u with plain | ⟨p, listed, rfl, same⟩
    · rw [plain] at fixed
      cases fixed
    · have spelled : ∀ p ∈ TokenKind.symbols, p.2.spelling? = some [unit p.1] := by decide
      rw [same, spelled p listed] at fixed
      exact Option.some.inj fixed

end Cut

theorem lexeme_kind_ne_eof (u : CodeUnit) (rest : Text) : (lexeme u rest).1 ≠ .eof :=
  (lexeme_cut u rest).kind_ne_eof

/-- The token is the end of input, or its kind is that of its literal. -/
def Token.Lexed (t : Token) : Prop := t.kind = .eof ∨ Cut t.kind t.literal

namespace Token.Lexed

theorem cut {t : Token} (lexed : t.Lexed) (kind : t.kind = k) (real : k ≠ .eof) :
    Cut k t.literal := by
  subst kind
  exact lexed.resolve_left real

theorem isName {t : Token} (lexed : t.Lexed) (kind : t.kind = .ident) : IsName t.literal :=
  (lexed.cut kind (by decide)).isName

theorem isNumeral {t : Token} (lexed : t.Lexed) (kind : t.kind = .int) : IsNumeral t.literal :=
  (lexed.cut kind (by decide)).isNumeral

end Token.Lexed

end Monkey
