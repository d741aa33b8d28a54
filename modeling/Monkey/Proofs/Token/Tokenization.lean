import Monkey.Proofs.Token.Reading

/-! Tokens as slices of a text. A list of tokens is the tokenization of a text if its literals stand
in the text in order and apart, only blanks stand between them, and each is as long as its kind asks
for. A text has one tokenization, and it is what `tokenize` gives. Literals that overlap would leave
a choice. -/
namespace Monkey

/-- What the literal of a token of the kind may be where `rest` follows. -/
inductive Exact (rest : Text) : TokenKind → Text → Prop where
  | keyword : (w, kind) ∈ TokenKind.words → (∀ u ∈ rest.head?, isLetter u = false) →
      Exact rest kind (utf16 w)
  | name : IsName x → (∀ u ∈ rest.head?, isLetter u = false) → Exact rest .ident x
  | number : IsNumeral x → (∀ u ∈ rest.head?, isDigit u = false) → Exact rest .int x
  | equal : Exact rest .eq (utf16 "==")
  | unequal : Exact rest .notEq (utf16 "!=")
  | symbol : (c, kind) ∈ TokenKind.symbols →
      (kind = .assign ∨ kind = .bang → rest.head? ≠ some (unit '=')) → Exact rest kind [unit c]
  | illegal : isSpace u = false → isLetter u = false → isDigit u = false →
      (∀ p ∈ TokenKind.symbols, u ≠ unit p.1) → Exact rest .illegal [u]

section Tables

theorem ofWord_of_mem (listed : (w, kind) ∈ TokenKind.words) :
    TokenKind.ofWord (utf16 w) = kind := by
  have table : ∀ p ∈ TokenKind.words, TokenKind.ofWord (utf16 p.1) = p.2 := by decide
  exact table (w, kind) listed

theorem letters_of_mem (listed : (w, kind) ∈ TokenKind.words) :
    utf16 w ≠ [] ∧ ∀ u ∈ utf16 w, isLetter u = true := by
  have table : ∀ p ∈ TokenKind.words, utf16 p.1 ≠ [] ∧ (utf16 p.1).all isLetter = true := by decide
  exact (table (w, kind) listed).imp_right List.all_eq_true.mp

variable {char : Char} (listed : (char, kind) ∈ TokenKind.symbols)
include listed

theorem ofSymbol_of_mem : TokenKind.ofSymbol (unit char) = kind ∧ kind ≠ .illegal := by
  have table : ∀ p ∈ TokenKind.symbols, TokenKind.ofSymbol (unit p.1) = p.2 ∧ p.2 ≠ .illegal := by
    decide
  exact table (char, kind) listed

theorem class_of_mem :
    isSpace (unit char) = false ∧ isLetter (unit char) = false ∧ isDigit (unit char) = false := by
  have table : ∀ p ∈ TokenKind.symbols,
      isSpace (unit p.1) = false ∧ isLetter (unit p.1) = false ∧ isDigit (unit p.1) = false := by
    decide
  exact table (char, kind) listed

/-- The symbols that a pair may start with. -/
theorem startsPair_of_mem :
    kind = .assign ∨ kind = .bang ↔ unit char = unit '=' ∨ unit char = unit '!' := by
  have table : ∀ p ∈ TokenKind.symbols,
      (p.2 = .assign ∨ p.2 = .bang ↔ unit p.1 = unit '=' ∨ unit p.1 = unit '!') := by decide
  exact table (char, kind) listed

end Tables

theorem exact_word (nonempty : x ≠ []) (letters : ∀ u ∈ x, isLetter u = true)
    (stop : ∀ u ∈ rest.head?, isLetter u = false) : Exact rest (.ofWord x) x := by
  rcases TokenKind.ofWord_cases x with plain | ⟨p, listed, rfl, kind⟩
  · rw [plain]
    exact .name ⟨nonempty, letters, (ofWord_eq_ident_iff x).mp plain⟩ stop
  · rw [kind]
    exact .keyword listed stop

theorem exact_symbol (solid : isSpace u = false) (noLetter : isLetter u = false)
    (noDigit : isDigit u = false)
    (single : u = unit '=' ∨ u = unit '!' → rest.head? ≠ some (unit '=')) :
    Exact rest (.ofSymbol u) [u] := by
  rcases TokenKind.ofSymbol_cases u with plain | ⟨p, listed, rfl, kind⟩
  · rw [plain]
    refine .illegal solid noLetter noDigit ?_
    rintro p listed rfl
    obtain ⟨kind, real⟩ := ofSymbol_of_mem listed
    exact real (kind.symm.trans plain)
  · rw [kind]
    exact .symbol listed fun opens => single ((startsPair_of_mem listed).mp opens)

/-- What the lexer cuts off a text is exact before what it leaves. -/
theorem exact_of_lexeme (solid : isSpace u = false) (cut : lexeme u t = (kind, x))
    (split : u :: t = x ++ rest) : Exact rest kind x := by
  have left (p : CodeUnit → Bool) (taken : u :: t.takeWhile p = x) :
      ∀ v ∈ rest.head?, p v = false := by
    have whole : t.takeWhile p ++ t.dropWhile p = t := List.takeWhile_append_dropWhile
    rw [← taken, List.cons_append] at split
    rw [← List.append_cancel_left (whole.trans (List.cons.inj split).2)]
    intro v head
    have first := List.head?_dropWhile_not p t
    rw [Option.mem_def.mp head] at first
    simpa using first
  unfold lexeme at cut
  split at cut
  next letter =>
    obtain ⟨rfl, taken⟩ := Prod.mk.inj cut
    have stop := left isLetter taken
    subst taken
    exact exact_word (List.cons_ne_nil _ _) (forall_mem_run letter t) stop
  next noLetter =>
  split at cut
  next digit =>
    obtain ⟨rfl, taken⟩ := Prod.mk.inj cut
    have stop := left isDigit taken
    subst taken
    exact .number ⟨List.cons_ne_nil _ _, forall_mem_run digit t⟩ stop
  next noDigit =>
  split at cut
  next =>
    obtain ⟨rfl, rfl⟩ := Prod.mk.inj cut
    exact .equal
  next noEqual =>
  split at cut
  next =>
    obtain ⟨rfl, rfl⟩ := Prod.mk.inj cut
    exact .unequal
  next noUnequal =>
    obtain ⟨rfl, rfl⟩ := Prod.mk.inj cut
    obtain ⟨-, rfl⟩ := List.cons.inj split
    refine exact_symbol solid (by simpa using noLetter) (by simpa using noDigit) ?_
    rintro (rfl | rfl) ahead
    · simp [ahead] at noEqual
    · simp [ahead] at noUnequal

theorem lexeme_symbol (noLetter : isLetter u = false) (noDigit : isDigit u = false)
    (single : u = unit '=' ∨ u = unit '!' → rest.head? ≠ some (unit '=')) :
    lexeme u rest = (.ofSymbol u, [u]) := by
  have noPair (v : CodeUnit) (opens : v = unit '=' ∨ v = unit '!') :
      ¬(u == v && rest.head? == some (unit '=')) = true := by
    rw [Bool.and_eq_true, beq_iff_eq, beq_iff_eq]
    rintro ⟨rfl, ahead⟩
    exact single opens ahead
  rw [lexeme, if_neg (by simp [noLetter]), if_neg (by simp [noDigit]),
    if_neg (noPair _ (.inl rfl)), if_neg (noPair _ (.inr rfl))]

/-- A literal that is exact before a text is what the lexer cuts off there. -/
theorem Exact.reads (exact : Exact rest kind x) (c : Cursor) :
    Reads c (x ++ rest) [⟨kind, x, c⟩] (c.after x) rest := by
  have word (x : Text) (nonempty : x ≠ []) (letters : ∀ u ∈ x, isLetter u = true)
      (stop : ∀ u ∈ rest.head?, isLetter u = false) :
      Reads c (x ++ rest) [⟨.ofWord x, x, c⟩] (c.after x) rest := by
    obtain ⟨u, x, rfl⟩ := List.exists_cons_of_ne_nil nonempty
    have solid := not_space_of_letter (letters u (.head _))
    exact .token solid (lexeme_word letters stop) rfl .done
  cases exact with
  | @keyword w kind listed stop =>
    obtain ⟨nonempty, letters⟩ := letters_of_mem listed
    rw [← ofWord_of_mem listed]
    exact word _ nonempty letters stop
  | name isName stop =>
    rw [← (ofWord_eq_ident_iff x).mpr isName.free]
    exact word x isName.nonempty isName.letters stop
  | number numeral stop =>
    obtain ⟨u, x, rfl⟩ := List.exists_cons_of_ne_nil numeral.nonempty
    have solid := not_space_of_digit (numeral.digits u (.head _))
    exact .token solid (lexeme_numeral numeral.digits stop) rfl .done
  | equal => exact .token (by decide) rfl rfl .done
  | unequal => exact .token (by decide) rfl rfl .done
  | @symbol char kind listed single =>
    obtain ⟨solid, noLetter, noDigit⟩ := class_of_mem listed
    have cut : lexeme (unit char) rest = (.ofSymbol (unit char), [unit char]) :=
      lexeme_symbol noLetter noDigit fun opens => single ((startsPair_of_mem listed).mpr opens)
    rw [(ofSymbol_of_mem listed).1] at cut
    exact .token solid cut rfl .done
  | @illegal u solid noLetter noDigit unlisted =>
    have kind : TokenKind.ofSymbol u = .illegal := by
      rcases TokenKind.ofSymbol_cases u with plain | ⟨p, listed, same, -⟩
      · exact plain
      · exact absurd same (unlisted p listed)
    have single : u ≠ unit '=' ∧ u ≠ unit '!' :=
      ⟨unlisted ('=', .assign) (by decide), unlisted ('!', .bang) (by decide)⟩
    rw [← kind]
    refine .token solid (lexeme_symbol noLetter noDigit ?_) rfl .done
    exact fun opens => (opens.elim single.1 single.2).elim

/-- The literal starts with a unit that is no blank. -/
theorem Exact.solid (exact : Exact rest kind x) : ∃ u y, x = u :: y ∧ isSpace u = false := by
  have word (x : Text) (nonempty : x ≠ []) (letters : ∀ u ∈ x, isLetter u = true) :
      ∃ u y, x = u :: y ∧ isSpace u = false := by
    obtain ⟨u, y, rfl⟩ := List.exists_cons_of_ne_nil nonempty
    exact ⟨u, y, rfl, not_space_of_letter (letters u (.head _))⟩
  cases exact with
  | keyword listed =>
    obtain ⟨nonempty, letters⟩ := letters_of_mem listed
    exact word _ nonempty letters
  | name isName => exact word x isName.nonempty isName.letters
  | number numeral =>
    obtain ⟨u, y, rfl⟩ := List.exists_cons_of_ne_nil numeral.nonempty
    exact ⟨u, y, rfl, not_space_of_digit (numeral.digits u (.head _))⟩
  | equal => exact ⟨_, _, rfl, by decide⟩
  | unequal => exact ⟨_, _, rfl, by decide⟩
  | symbol listed => exact ⟨_, _, rfl, (class_of_mem listed).1⟩
  | illegal solid => exact ⟨_, _, rfl, solid⟩

theorem Exact.kind_ne_eof (exact : Exact rest kind x) : kind ≠ .eof :=
  ((exact.reads .zero).cut _ (.head _)).kind_ne_eof

/-- Only the next unit matters, and a space is as good as any. -/
theorem Exact.before (exact : Exact rest kind x)
    (ahead : rest'.head? = rest.head? ∨ rest'.head? = some (unit ' ')) : Exact rest' kind x := by
  have stops {p : CodeUnit → Bool} (space : p (unit ' ') = false)
      (stop : ∀ u ∈ rest.head?, p u = false) : ∀ u ∈ rest'.head?, p u = false := by
    rcases ahead with same | blank
    · rwa [same]
    · rw [blank]
      rintro _ ⟨⟩
      exact space
  cases exact with
  | keyword listed stop => exact .keyword listed (stops (by decide) stop)
  | name isName stop => exact .name isName (stops (by decide) stop)
  | number numeral stop => exact .number numeral (stops (by decide) stop)
  | equal => exact .equal
  | unequal => exact .unequal
  | symbol listed single =>
    refine .symbol listed fun opens => ?_
    rcases ahead with same | blank
    · rw [same]
      exact single opens
    · rw [blank]
      decide
  | illegal solid noLetter noDigit unlisted => exact .illegal solid noLetter noDigit unlisted

/-- The text of the first tokens reads the same before any text that starts with a space. -/
theorem Reads.upTo (read : Reads c t ts c' rest) (split : ts = v ++ w) : ∃ t', t' <+: t ∧
    ∀ more : Text, more.head? = some (unit ' ') → Reads c (t' ++ more) v (c.after t') more := by
  induction read generalizing v with
  | done =>
    obtain ⟨rfl, -⟩ := List.append_eq_nil_iff.mp split.symm
    exact ⟨[], List.nil_prefix, fun _ _ => .done⟩
  | @space u t ts c' left c blank read ih =>
    obtain ⟨t', begins, further⟩ := ih split
    exact ⟨u :: t', (List.prefix_cons_inj u).mpr begins, fun more ahead =>
      .space blank (further more ahead)⟩
  | @token u t kind x tail ts c' left c solid lexed cut read ih =>
    cases v with
    | nil => exact ⟨[], List.nil_prefix, fun _ _ => .done⟩
    | cons y v =>
      obtain ⟨rfl, rest⟩ := List.cons.inj split
      obtain ⟨t', ⟨left, begins⟩, further⟩ := ih rest
      refine ⟨x ++ t', ⟨left, by rw [cut, ← begins, List.append_assoc]⟩, fun more ahead => ?_⟩
      have exact : Exact (t' ++ more) kind x := by
        refine (exact_of_lexeme solid lexed cut).before ?_
        cases t' with
        | nil => exact .inr ahead
        | cons u t' => exact .inl (by rw [← begins]; rfl)
      rw [List.append_assoc, Cursor.after_append]
      exact (exact.reads c).append (further more ahead)

/-- From the offset `k` on, the tokens are slices of the text in order, each as long as its kind
asks for, with nothing but blanks outside of them and the end of input behind them. -/
structure Slicing (s : Text) (k : Nat) (ts : List Token) : Prop where
  behind : ∀ x ∈ ts, k ≤ x.start.offset
  increasing : ts.Pairwise fun x y => x.start.offset < y.start.offset
  slices : ∀ x ∈ ts, (s.drop x.start.offset).take x.literal.length = x.literal
  blanks : ∀ i u, k ≤ i → s[i]? = some u →
    (∀ x ∈ ts, i < x.start.offset ∨ x.start.offset + x.literal.length ≤ i) → isSpace u = true
  exact : ∀ x ∈ ts, x.kind ≠ .eof →
    Exact (s.drop (x.start.offset + x.literal.length)) x.kind x.literal
  ended : ∃ us last, ts = us ++ [last] ∧ (∀ x ∈ us, x.kind ≠ .eof) ∧
    last.kind = .eof ∧ last.literal = [] ∧ last.start.offset = s.length

/-- The slices do not overlap. -/
structure Tokenization (s : Text) (k : Nat) (ts : List Token) : Prop extends Slicing s k ts where
  disjoint : ts.Pairwise fun x y => x.start.offset + x.literal.length ≤ y.start.offset

namespace Tokenization

theorem finish (start : c.offset = s.length) : Tokenization s s.length [.endOfInput c] where
  behind := by simp [Token.endOfInput, start]
  increasing := List.pairwise_singleton _ _
  disjoint := List.pairwise_singleton _ _
  slices := by simp [Token.endOfInput]
  blanks i u behind here := by
    have inside := (List.getElem?_eq_some_iff.mp here).1
    omega
  exact := by simp [Token.endOfInput]
  ended := ⟨[], _, rfl, nofun, rfl, rfl, start⟩

theorem skip (here : s[k]? = some u) (blank : isSpace u = true) (cut : Tokenization s (k + 1) ts) :
    Tokenization s k ts where
  behind x member := Nat.le_of_succ_le (cut.behind x member)
  increasing := cut.increasing
  disjoint := cut.disjoint
  slices := cut.slices
  blanks i v behind there free := by
    rcases Nat.eq_or_lt_of_le behind with rfl | further
    · obtain rfl := Option.some.inj (here.symm.trans there)
      exact blank
    · exact cut.blanks i v further there free
  exact := cut.exact
  ended := cut.ended

theorem cons (start : c.offset = k) (split : s.drop k = x ++ rest) (exact : Exact rest kind x)
    (cut : Tokenization s (k + x.length) ts) : Tokenization s k (⟨kind, x, c⟩ :: ts) where
  behind y member := by
    rcases List.mem_cons.mp member with rfl | member
    · exact Nat.le_of_eq start.symm
    · exact Nat.le_trans (Nat.le_add_right k _) (cut.behind y member)
  increasing := by
    refine List.pairwise_cons.mpr ⟨fun y member => ?_, cut.increasing⟩
    have behind := cut.behind y member
    obtain ⟨u, tail, rfl, -⟩ := exact.solid
    simp only [List.length_cons] at behind ⊢
    omega
  disjoint := List.pairwise_cons.mpr ⟨start ▸ cut.behind, cut.disjoint⟩
  slices := by
    refine List.forall_mem_cons.mpr ⟨?_, cut.slices⟩
    rw [start, split, List.take_left]
  blanks i u behind here free := by
    obtain ⟨notHere, free⟩ := List.forall_mem_cons.mp free
    refine cut.blanks i u ?_ here free
    simp only [start] at notHere
    omega
  exact := by
    refine List.forall_mem_cons.mpr ⟨fun _ => ?_, cut.exact⟩
    rw [start, ← List.drop_drop, split, List.drop_left]
    exact exact
  ended := by
    obtain ⟨us, last, rfl, real, ended⟩ := cut.ended
    exact ⟨_ :: us, last, rfl, List.forall_mem_cons.mpr ⟨exact.kind_ne_eof, real⟩, ended⟩

section Start

variable (cut : Tokenization s k ts)
include cut

theorem inside : k ≤ s.length := by
  obtain ⟨us, last, rfl, -, -, -, at_⟩ := cut.ended
  exact at_ ▸ cut.behind last (by simp)

/-- A token of the text is the end of input or stands there with a unit that is no blank. -/
theorem meets (member : x ∈ ts) :
    x.literal = [] ∧ x.kind = .eof ∧ x.start.offset = s.length ∨
      x.kind ≠ .eof ∧ ∃ u y, x.literal = u :: y ∧ isSpace u = false ∧
        s[x.start.offset]? = some u := by
  by_cases real : x.kind = .eof
  · obtain ⟨us, last, rfl, others, -, empty, at_⟩ := cut.ended
    rcases List.mem_append.mp member with member | member
    · exact absurd real (others x member)
    · obtain rfl := List.mem_singleton.mp member
      exact .inl ⟨empty, real, at_⟩
  · obtain ⟨u, y, literal, solid⟩ := (cut.exact x member real).solid
    refine .inr ⟨real, u, y, literal, solid, ?_⟩
    have slice := congrArg (·[0]?) (cut.slices x member)
    simpa [literal] using slice

/-- No token starts at a blank. -/
theorem unskip (here : s[k]? = some u) (blank : isSpace u = true) : Tokenization s (k + 1) ts where
  behind x member := by
    refine Nat.lt_of_le_of_ne (cut.behind x member) fun same => ?_
    rcases cut.meets member with ⟨-, -, at_⟩ | ⟨-, v, -, -, solid, there⟩
    · have inside := (List.getElem?_eq_some_iff.mp here).1
      omega
    · rw [← same, here] at there
      obtain rfl := Option.some.inj there
      simp [blank] at solid
  increasing := cut.increasing
  disjoint := cut.disjoint
  slices := cut.slices
  blanks i v behind there free := cut.blanks i v (Nat.le_of_succ_le behind) there free
  exact := cut.exact
  ended := cut.ended

/-- A unit that is no blank starts the first token. -/
theorem uncons (here : s[k]? = some u) (solid : isSpace u = false) : ∃ x us, ts = x :: us ∧
    x.start.offset = k ∧ s.drop k = x.literal ++ s.drop (k + x.literal.length) ∧
    Exact (s.drop (k + x.literal.length)) x.kind x.literal ∧
    Tokenization s (k + x.literal.length) us := by
  have covered : ∃ x ∈ ts, x.start.offset = k ∧ k < x.start.offset + x.literal.length := by
    apply Classical.byContradiction
    intro free
    have blank := cut.blanks k u (Nat.le_refl k) here fun x member => by
      have behind := cut.behind x member
      rcases Nat.eq_or_lt_of_le behind with same | further
      · exact .inr (Nat.le_of_not_lt fun wide => free ⟨x, member, same.symm, wide⟩)
      · exact .inl further
    simp [blank] at solid
  obtain ⟨x, member, start, wide⟩ := covered
  obtain ⟨y, us, rfl⟩ := List.exists_cons_of_ne_nil (List.ne_nil_of_mem member)
  obtain ⟨before, increasing⟩ := List.pairwise_cons.mp cut.increasing
  obtain rfl : x = y := by
    rcases List.mem_cons.mp member with same | later
    · exact same
    · have first := cut.behind y (.head _)
      have second := before x later
      omega
  have real : x.kind ≠ .eof := by
    rcases cut.meets member with ⟨empty, -⟩ | ⟨real, -⟩
    · simp [empty, start] at wide
    · exact real
  have exact := cut.exact x member real
  have slice := cut.slices x member
  rw [start] at exact slice
  have whole : s.drop k = x.literal ++ s.drop (k + x.literal.length) := by
    calc s.drop k = (s.drop k).take x.literal.length ++ (s.drop k).drop x.literal.length :=
          (List.take_append_drop _ _).symm
      _ = x.literal ++ s.drop (k + x.literal.length) := by rw [slice, List.drop_drop]
  refine ⟨x, us, rfl, start, whole, exact, ?_⟩
  obtain ⟨apart, disjoint⟩ := List.pairwise_cons.mp cut.disjoint
  refine ⟨⟨start ▸ apart, increasing, fun y later => cut.slices y (.tail _ later), ?_,
    fun y later => cut.exact y (.tail _ later), ?_⟩, disjoint⟩
  · intro i v behind there free
    refine cut.blanks i v (Nat.le_trans (Nat.le_add_right k _) behind) there ?_
    exact List.forall_mem_cons.mpr ⟨.inr (start ▸ behind), free⟩
  · obtain ⟨vs, last, split, others, ended⟩ := cut.ended
    cases vs with
    | nil =>
      obtain ⟨rfl, -⟩ := List.cons.inj split
      exact absurd ended.1 real
    | cons v vs =>
      obtain ⟨rfl, rfl⟩ := List.cons.inj split
      exact ⟨vs, last, rfl, fun y later => others y (.tail _ later), ended⟩

end Start
end Tokenization

/-- What a token says, its line and column apart. -/
def Token.place (x : Token) : TokenKind × Text × Nat := (x.kind, x.literal, x.start.offset)

/-- What a token is, wherever it stands. -/
def Token.lexeme (t : Token) : TokenKind × Text := (t.kind, t.literal)

def lexemes (ts : List Token) : List (TokenKind × Text) := ts.map Token.lexeme

theorem drop_of_drop_eq_append {s x rest : Text} (here : s.drop k = x ++ rest)
    (inside : k ≤ s.length) : s.drop (k + x.length) = rest ∧ k + x.length ≤ s.length := by
  constructor
  · rw [← List.drop_drop, here, List.drop_left]
  · have lengths := congrArg List.length here
    rw [List.length_drop, List.length_append] at lengths
    omega

theorem Reads.tokenization (read : Reads c t ts c' []) (inside : c.offset ≤ s.length)
    (here : s.drop c.offset = t) : Tokenization s c.offset (ts ++ [.endOfInput c']) := by
  generalize ended : ([] : Text) = left at read
  induction read with
  | @done c t =>
    subst ended
    have start : c.offset = s.length := Nat.le_antisymm inside (List.drop_eq_nil_iff.mp here)
    rw [start]
    exact .finish start
  | @space u t ts c' left c blank read ih =>
    have next : (c.past u).offset = c.offset + 1 := c.offset_after [u]
    obtain ⟨here', inside'⟩ := drop_of_drop_eq_append (x := [u]) here inside
    have cut := ih (next ▸ inside') (next ▸ here') ended
    rw [next] at cut
    have first : s[c.offset]? = some u := by
      rw [← Nat.add_zero c.offset, ← List.getElem?_drop, here]
      rfl
    exact cut.skip first blank
  | @token u t kind x rest ts c' left c solid lexed split read ih =>
    have next := c.offset_after x
    rw [split] at here
    obtain ⟨here', inside'⟩ := drop_of_drop_eq_append here inside
    have cut := ih (next ▸ inside') (next ▸ here') ended
    rw [next] at cut
    exact .cons rfl here (exact_of_lexeme solid lexed split) cut

theorem Tokenization.reads (cut : Tokenization s k ts) (c : Cursor) (start : c.offset = k) :
    ∃ us c', Reads c (s.drop k) us c' [] ∧
      ts.map Token.place = (us ++ [Token.endOfInput c']).map Token.place := by
  induction left : s.length - k using Nat.strongRecOn generalizing k ts c with
  | ind n ih =>
  cases here : s[k]? with
  | none =>
    have past := List.getElem?_eq_none_iff.mp here
    have atEnd : ∀ x ∈ ts, x.literal = [] ∧ x.kind = .eof ∧ x.start.offset = s.length := by
      intro x member
      rcases cut.meets member with ended | ⟨-, u, -, -, -, there⟩
      · exact ended
      · have inside := (List.getElem?_eq_some_iff.mp there).1
        have behind := cut.behind x member
        omega
    obtain ⟨us, last, rfl, others, ended⟩ := cut.ended
    have empty : us = [] := by
      apply List.eq_nil_iff_forall_not_mem.mpr
      exact fun x member => others x member (atEnd x (by simp [member])).2.1
    have finish : c.offset = s.length := by
      have inside := cut.inside
      omega
    refine ⟨[], c, ?_, ?_⟩
    · rw [List.drop_eq_nil_iff.mpr past]
      exact .done
    · simp [empty, Token.place, Token.endOfInput, ended, finish]
  | some u =>
    have inside := (List.getElem?_eq_some_iff.mp here).1
    by_cases blank : isSpace u = true
    · have next : (c.past u).offset = k + 1 := start ▸ c.offset_after [u]
      obtain ⟨us, c', read, same⟩ := ih (s.length - (k + 1)) (by omega)
        (cut.unskip here blank) (c.past u) next rfl
      refine ⟨us, c', ?_, same⟩
      have split : s.drop k = u :: s.drop (k + 1) := by
        rw [List.drop_eq_getElem_cons inside, (List.getElem?_eq_some_iff.mp here).2]
      rw [split]
      exact .space blank read
    · obtain ⟨x, us, rfl, at_, split, exact, cut⟩ := cut.uncons here (by simpa using blank)
      obtain ⟨v, y, literal, -⟩ := exact.solid
      have positive : 0 < x.literal.length := by simp [literal]
      obtain ⟨vs, c', read, same⟩ := ih (s.length - (k + x.literal.length)) (by omega) cut
        (c.after x.literal) (start ▸ c.offset_after x.literal) rfl
      refine ⟨⟨x.kind, x.literal, c⟩ :: vs, c', ?_, ?_⟩
      · rw [split]
        exact (exact.reads c).append read
      · simp [same, Token.place, at_, start]

/-- Tokens start where the text before them ends. -/
theorem Reads.starts (read : Reads c t ts c' rest) :
    (∀ x ∈ ts, ∃ w, w <+: t ∧ x.start = c.after w) ∧ ∃ w, t = w ++ rest ∧ c' = c.after w := by
  induction read with
  | done => exact ⟨nofun, [], rfl, rfl⟩
  | @space u t ts c' left c blank read ih =>
    obtain ⟨starts, w, split, ends⟩ := ih
    refine ⟨fun x member => ?_, u :: w, by rw [split]; rfl, ends⟩
    obtain ⟨w, before, start⟩ := starts x member
    exact ⟨u :: w, (List.prefix_cons_inj u).mpr before, start⟩
  | @token u t kind x rest ts c' left c solid lexed split read ih =>
    obtain ⟨starts, w, split', ends⟩ := ih
    constructor
    · refine List.forall_mem_cons.mpr ⟨⟨[], List.nil_prefix, rfl⟩, fun y member => ?_⟩
      obtain ⟨w, before, start⟩ := starts y member
      refine ⟨x ++ w, ?_, by rw [start, Cursor.after_append]⟩
      rw [split]
      exact (List.prefix_append_right_inj x).mpr before
    · exact ⟨x ++ w, by rw [split, split', List.append_assoc], by rw [ends, Cursor.after_append]⟩

/-- The line and the column of the token are those of its offset in the text. -/
def Token.Placed (s : Text) (x : Token) : Prop :=
  x.start = Cursor.zero.after (s.take x.start.offset)

theorem tokenize_placed (s : Text) : ∀ x ∈ tokenize s, x.Placed s := by
  have placed {x : Token} {w : Text} (before : w <+: s) (start : x.start = Cursor.zero.after w) :
      x.Placed s := by
    have offset : x.start.offset = w.length := by
      rw [start, Cursor.offset_after]
      exact Nat.zero_add _
    rw [Token.Placed, offset, ← List.prefix_iff_eq_take.mp before, start]
  obtain ⟨ts, c, read, same⟩ := tokenize_reads s
  obtain ⟨starts, w, whole, ends⟩ := read.starts
  intro x member
  rw [same] at member
  rcases List.mem_append.mp member with member | member
  · obtain ⟨w, before, start⟩ := starts x member
    exact placed before start
  · rw [List.mem_singleton.mp member]
    exact placed ⟨[], whole.symm⟩ ends

theorem eq_of_places {ts us : List Token} (same : ts.map Token.place = us.map Token.place)
    (left : ∀ x ∈ ts, x.Placed s) (right : ∀ x ∈ us, x.Placed s) : ts = us := by
  -- a token with its place in the text is read off what it says
  let token (p : TokenKind × Text × Nat) : Token := ⟨p.1, p.2.1, Cursor.zero.after (s.take p.2.2)⟩
  have recover {xs : List Token} (placed : ∀ x ∈ xs, x.Placed s) :
      (xs.map Token.place).map token = xs := by
    rw [List.map_map]
    refine (List.map_congr_left fun x member => ?_).trans (List.map_id xs)
    exact congrArg (Token.mk x.kind x.literal) (placed x member).symm
  rw [← recover left, same, recover right]

namespace Scanner

variable (s : Scanner)

theorem nextToken_of_ended (ended : s.rest = []) : s.nextToken = (.endOfInput s.position, s) := by
  obtain ⟨behind, rest, position⟩ := s
  subst ended
  rfl

/-- Behind the end of input there is nothing left. -/
theorem ended_of_nextToken (last : s.nextToken.1.kind = .eof) :
    s.nextToken.2.rest = [] ∧ s.nextToken.1 = .endOfInput s.nextToken.2.position := by
  unfold nextToken readToken at last ⊢
  split
  next ended => exact ⟨ended, rfl⟩
  next u rest here =>
    rw [here] at last
    exact absurd last (lexeme_kind_ne_eof u rest)

theorem take_of_ended (ended : s.rest = []) (n : Nat) :
    s.take n = List.replicate n (.endOfInput s.position) := by
  induction n with
  | zero => rfl
  | succ n ih => rw [take, s.nextToken_of_ended ended, ih, List.replicate_succ]

theorem take_of_last (last : s.nextToken.1.kind = .eof) (n : Nat) :
    s.take (1 + n) = [s.nextToken.1] ++ List.replicate n s.nextToken.1 := by
  obtain ⟨ended, same⟩ := s.ended_of_nextToken last
  rw [Nat.add_comm, take, take_of_ended _ ended, ← same]
  rfl

/-- Asking on gives the tokens, and then their last one for ever. -/
theorem take_tokens (fuel : Nat) (enough : s.rest.length ≤ fuel) (n : Nat) :
    ∃ last, (tokens fuel s).getLast? = some last ∧
      s.take ((tokens fuel s).length + n) = tokens fuel s ++ List.replicate n last := by
  induction fuel generalizing s with
  | zero =>
    rcases s.nextToken_cases with ⟨c, ended, read⟩ | ⟨-, shorter, -⟩
    · exact ⟨_, rfl, s.take_of_last (by rw [ended]; rfl) n⟩
    · omega
  | succ fuel ih =>
    rw [tokens]
    split
    next last => exact ⟨_, rfl, s.take_of_last last n⟩
    next real =>
      rcases s.nextToken_cases with ⟨c, ended, read⟩ | ⟨-, shorter, -⟩
      · exact absurd (congrArg Token.kind ended) real
      · obtain ⟨last, final, run⟩ := ih s.nextToken.2 (by omega)
        refine ⟨last, ?_, ?_⟩
        · rw [List.getLast?_cons, final]
          rfl
        · rw [List.length_cons, Nat.add_right_comm, take, run, List.cons_append]

end Scanner

theorem tokenize_tokenization (s : Text) : Tokenization s 0 (tokenize s) := by
  obtain ⟨ts, c, read, tokens⟩ := tokenize_reads s
  rw [tokens]
  exact read.tokenization (Nat.zero_le _) rfl

/-- A text has one tokenization up to lines and columns and, with lines and columns as they are in
the text, one altogether; a scanner gives it and then the end of input for ever. -/
theorem tokenize_unique (s : Text) :
    Tokenization s 0 (tokenize s) ∧ (∀ x ∈ tokenize s, x.Placed s) ∧
    (∀ ts, Tokenization s 0 ts → ts.map Token.place = (tokenize s).map Token.place) ∧
    (∀ ts, Tokenization s 0 ts → (∀ x ∈ ts, x.Placed s) → ts = tokenize s) ∧
    ∀ n, ∃ last, (tokenize s).getLast? = some last ∧
      (Scanner.ofText s).take ((tokenize s).length + n) = tokenize s ++ List.replicate n last := by
  have same (ts : List Token) (cut : Tokenization s 0 ts) :
      ts.map Token.place = (tokenize s).map Token.place := by
    obtain ⟨us, c, read, same⟩ := cut.reads .zero rfl
    exact same.trans (congrArg (List.map Token.place) (tokenize_eq read).symm)
  refine ⟨tokenize_tokenization s, tokenize_placed s, same, ?_, ?_⟩
  · exact fun ts cut placed => eq_of_places (same ts cut) placed (tokenize_placed s)
  · exact (Scanner.ofText s).take_tokens s.length (Nat.le_refl _)

example : (tokenize (utf16 "===!==7a ")).map Token.place =
    [(.eq, utf16 "==", 0), (.assign, utf16 "=", 2), (.notEq, utf16 "!=", 3),
      (.assign, utf16 "=", 5), (.int, utf16 "7", 6), (.ident, utf16 "a", 7), (.eof, [], 9)] := by
  decide +kernel

/-- An equals sign is counted twice, in the pair and alone. -/
def overlappingTokens : List Token :=
  [⟨.eq, utf16 "==", ⟨0, 0, 0⟩⟩, ⟨.assign, utf16 "=", ⟨0, 1, 1⟩⟩, .endOfInput ⟨0, 2, 2⟩]

theorem slicing_overlappingTokens : Slicing (utf16 "==") 0 overlappingTokens where
  behind _ _ := Nat.zero_le _
  increasing := by decide
  slices := by decide
  blanks i u _ here free := by
    -- the pair covers the whole text
    have inside : i < 2 := (List.getElem?_eq_some_iff.mp here).1
    have outside : i < 0 ∨ 0 + 2 ≤ i := free _ (.head _)
    omega
  exact := by
    refine List.forall_mem_cons.mpr ⟨fun _ => .equal, List.forall_mem_cons.mpr ⟨fun _ => ?_, ?_⟩⟩
    · exact .symbol (c := '=') (by decide) (by decide)
    · exact List.forall_mem_singleton.mpr fun real => absurd rfl real
  ended := ⟨[_, _], _, rfl, by decide, rfl, rfl, rfl⟩

/-- Slices that overlap can make another list than the tokens of the text, and so can slices that
are apart if a token says another line than the text. -/
theorem slicing_not_unique :
    (Slicing (utf16 "==") 0 overlappingTokens ∧ (∀ x ∈ overlappingTokens, x.Placed (utf16 "==")) ∧
      overlappingTokens.map Token.place ≠ (tokenize (utf16 "==")).map Token.place) ∧
    Tokenization [] 0 [.endOfInput ⟨1, 0, 0⟩] ∧ [.endOfInput ⟨1, 0, 0⟩] ≠ tokenize [] := by
  refine ⟨⟨slicing_overlappingTokens, ?_, by decide⟩, .finish rfl, by decide⟩
  exact List.forall_mem_cons.mpr ⟨rfl, List.forall_mem_cons.mpr ⟨rfl,
    List.forall_mem_singleton.mpr rfl⟩⟩

end Monkey
