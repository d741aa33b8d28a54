import Mathlib.Data.List.DropRight
import Monkey.Console.Shell
import Monkey.Proofs.Token.Numeral
import Monkey.Proofs.Token.Tokenization

/-! The listing of tokens. It has one line for each token, and a line loses the blanks at its end.
The lexer knows fewer blanks than that: a blank it does not skip is an illegal token, and its line
shows no literal. Of any other source the listing shows kinds and literals whole, and they can be
read off it. -/
namespace Monkey

section Blanks

theorem not_blank_of_letter (letter : isLetter u = true) : isBlank u = false := by
  have range := (isLetter_iff u).mp letter
  exact not_blank_of_ascii (by omega) (by omega)

theorem trimEnd_append (x t : Text) :
    trimEnd (x ++ t) = if trimEnd t = [] then trimEnd x else x ++ trimEnd t := by
  unfold trimEnd
  rw [List.reverse_append, List.dropWhile_append]
  simp only [List.isEmpty_iff, List.reverse_eq_nil_iff]
  split
  · rfl
  · rw [List.reverse_append, List.reverse_reverse]

theorem trimEnd_eq_nil_iff {t : Text} : trimEnd t = [] ↔ ∀ u ∈ t, isBlank u = true :=
  List.rdropWhile_eq_nil_iff

theorem trimEnd_eq_self {t : Text} (solid : ∀ u ∈ t, isBlank u = false) : trimEnd t = t := by
  refine List.rdropWhile_eq_self_iff.mpr fun nonempty => ?_
  simp [solid _ (List.getLast_mem nonempty)]

/-- The two ends are trimmed in any order. -/
theorem trimStart_trimEnd (t : Text) : trimStart (trimEnd t) = trimEnd (trimStart t) := by
  induction t with
  | nil => rfl
  | cons u t ih =>
    have whole : trimEnd (u :: t) = if trimEnd t = [] then trimEnd [u] else u :: trimEnd t :=
      trimEnd_append [u] t
    by_cases blank : isBlank u = true
    · have skipped (y : Text) : trimStart (u :: y) = trimStart y := List.dropWhile_cons_of_pos blank
      rw [skipped, ← ih, whole]
      split
      next empty => rw [empty, trimEnd_eq_nil_iff.mpr (List.forall_mem_singleton.mpr blank)]
      next => exact skipped _
    · have kept (y : Text) : trimStart (u :: y) = u :: y := List.dropWhile_cons_of_neg blank
      rw [kept, whole]
      split
      next =>
        rw [trimEnd_eq_self (List.forall_mem_singleton.mpr (Bool.eq_false_iff.mpr blank))]
        exact kept []
      next => exact kept _

theorem trim_trimEnd (t : Text) : trim (trimEnd t) = trim t := by
  unfold trim
  rw [trimStart_trimEnd]
  exact List.rdropWhile_idempotent isBlank (trimStart t)

end Blanks

/-- No unit of a literal is blank, unless it is the one unit of an illegal token, and then it is no
blank that the lexer skips. -/
theorem Exact.blanks (exact : Exact rest kind x) :
    (∀ u ∈ x, isBlank u = false) ∨
      ∃ u, x = [u] ∧ kind = .illegal ∧ isSpace u = false ∧ isBlank u = true := by
  have spelled (y : Text) (clear : y.all (fun u => !isBlank u) = true) :
      ∀ u ∈ y, isBlank u = false := fun u member => by
    simpa using List.all_eq_true.mp clear u member
  cases exact with
  | keyword listed =>
    exact .inl fun u member => not_blank_of_letter ((letters_of_mem listed).2 u member)
  | name isName => exact .inl fun u member => not_blank_of_letter (isName.letters u member)
  | number numeral => exact .inl fun u member => isDigit_not_blank (numeral.digits u member)
  | equal => exact .inl (spelled _ (by decide))
  | unequal => exact .inl (spelled _ (by decide))
  | @symbol char kind listed =>
    have table : ∀ p ∈ TokenKind.symbols, isBlank (unit p.1) = false := by decide
    exact .inl (List.forall_mem_singleton.mpr (table (char, kind) listed))
  | @illegal u solid =>
    by_cases blank : isBlank u = true
    · exact .inr ⟨u, rfl, rfl, solid, blank⟩
    · exact .inl (List.forall_mem_singleton.mpr (Bool.eq_false_iff.mpr blank))

namespace Token

/-- The token whole: its kind, a space and its literal; the end of input has none. -/
def row (x : Token) : Text :=
  if x.kind = .eof then x.kind.name else x.kind.name ++ utf16 " " ++ x.literal

/-- The line of a listing: a blank literal is left out. -/
def shown (x : Token) : Text :=
  if x.literal.all isBlank then x.kind.name else x.kind.name ++ utf16 " " ++ x.literal

end Token

/-- The kind and the literal that a line shows: what is before its first space and behind it. -/
def readRow (r : Text) : Option (TokenKind × Text) :=
  (TokenKind.ofName? (r.takeWhile (· != unit ' '))).map fun kind =>
    (kind, (r.dropWhile (· != unit ' ')).drop 1)

section Rows

variable {t : Text} {x : Token}

/-- Kinds have names of letters. -/
theorem letters_of_name (kind : TokenKind) : ∀ u ∈ kind.name, isLetter u = true :=
  List.all_eq_true.mp (by cases kind <;> decide)

theorem ofName?_name (kind : TokenKind) : TokenKind.ofName? kind.name = some kind := by
  cases kind <;> decide

theorem readRow_name (kind : TokenKind) (y : Text) :
    readRow kind.name = some (kind, []) ∧
    readRow (kind.name ++ utf16 " " ++ y) = some (kind, y) := by
  have inside : ∀ u ∈ kind.name, (u != unit ' ') = true := by
    intro u member
    rw [bne_iff_ne]
    rintro rfl
    exact absurd (letters_of_name kind _ member) (by decide)
  have read (rest : Text) (stop : ∀ u ∈ rest.head?, (u != unit ' ') = false) :
      readRow (kind.name ++ rest) = some (kind, (rest.dropWhile (· != unit ' ')).drop 1) := by
    rw [readRow, takeWhile_append_loose inside stop, List.dropWhile_append_of_pos inside,
      ofName?_name]
    rfl
  constructor
  · rw [← List.append_nil kind.name]
    exact read [] nofun
  · rw [List.append_assoc]
    refine read (utf16 " " ++ y) ?_
    rintro u ⟨⟩
    decide

/-- Behind the name of a kind, a literal is trimmed at its end, and away with the space if it is
blank. -/
theorem trimEnd_name (kind : TokenKind) (y : Text) :
    trimEnd (kind.name ++ utf16 " " ++ y) =
      if y.all isBlank then kind.name else kind.name ++ utf16 " " ++ trimEnd y := by
  have name : trimEnd (kind.name ++ utf16 " ") = kind.name := by
    rw [trimEnd_append, if_pos (by decide)]
    exact trimEnd_eq_self fun u member => not_blank_of_letter (letters_of_name kind u member)
  rw [trimEnd_append, name]
  simp only [trimEnd_eq_nil_iff, List.all_eq_true]

/-- A token of a text is the end of input, shows a literal without blanks, or is a blank that the
lexer does not skip. -/
theorem literal_cases (member : x ∈ tokenize t) :
    x.kind = .eof ∧ x.literal = [] ∨
    x.kind ≠ .eof ∧ x.literal ≠ [] ∧ (∀ u ∈ x.literal, isBlank u = false) ∨
    x.kind = .illegal ∧ ∃ u, x.literal = [u] ∧ isSpace u = false ∧ isBlank u = true := by
  have cut := tokenize_tokenization t
  rcases cut.meets member with ⟨empty, ended, -⟩ | ⟨real, u, y, literal, -⟩
  · exact .inl ⟨ended, empty⟩
  rcases (cut.exact x member real).blanks with solid | ⟨v, single, kind, blank⟩
  · exact .inr (.inl ⟨real, by simp [literal], solid⟩)
  · exact .inr (.inr ⟨kind, v, single, blank⟩)

theorem shown_of_solid (nonempty : x.literal ≠ []) (solid : ∀ u ∈ x.literal, isBlank u = false) :
    x.shown = x.kind.name ++ utf16 " " ++ x.literal := by
  refine if_neg fun blank => ?_
  obtain ⟨u, y, literal⟩ := List.exists_cons_of_ne_nil nonempty
  have first : u ∈ x.literal := literal ▸ List.mem_cons_self
  exact Bool.false_ne_true ((solid u first).symm.trans (List.all_eq_true.mp blank u first))

theorem shown_of_blank (single : x.literal = [u]) (blank : isBlank u = true) :
    x.shown = x.kind.name :=
  if_pos (by simp [single, blank])

/-- A line shows its token, up to a literal that is blank. -/
theorem trimEnd_row (member : x ∈ tokenize t) :
    trimEnd (x.kind.name ++ utf16 " " ++ x.literal) = x.shown := by
  rw [trimEnd_name, Token.shown]
  rcases literal_cases member with ⟨-, empty⟩ | ⟨-, -, solid⟩ | ⟨-, u, single, -, blank⟩
  · rw [empty]
    rfl
  · rw [trimEnd_eq_self solid]
  · rw [single]
    simp [blank]

theorem lineFeed_not_mem_shown (member : x ∈ tokenize t) : unit '\n' ∉ x.shown := by
  have name : unit '\n' ∉ x.kind.name := fun listed =>
    absurd (letters_of_name x.kind _ listed) (by decide)
  rcases literal_cases member with ⟨-, empty⟩ | ⟨-, nonempty, solid⟩ | ⟨-, u, single, -, blank⟩
  · rw [Token.shown, empty]
    exact name
  · rw [shown_of_solid nonempty solid, List.mem_append, List.mem_append]
    rintro ((listed | space) | listed)
    · exact name listed
    · exact absurd space (by decide)
    · exact absurd (solid _ listed) (by decide)
  · rw [shown_of_blank single blank]
    exact name

/-- Split into lines, the listing shows the tokens in order. -/
theorem splitOn_listTokens (t : Text) :
    (Shell.listTokens t).splitOn (unit '\n') = (tokenize t).map Token.shown := by
  have rows : Shell.listTokens t = [unit '\n'].intercalate ((tokenize t).map Token.shown) :=
    congrArg joinLines (List.map_congr_left fun x member => trimEnd_row member)
  rw [rows]
  refine List.splitOn_intercalate _ (fun row listed => ?_) ?_
  · obtain ⟨x, member, rfl⟩ := List.mem_map.mp listed
    exact lineFeed_not_mem_shown member
  · obtain ⟨us, last, tokens, -⟩ := (tokenize_tokenization t).ended
    simp [tokens]

end Rows

section Faithful

variable {t : Text}

/-- A blank that the lexer does not skip is a token of its own. -/
theorem exists_token_of_blank (member : u ∈ t) (blank : isBlank u = true)
    (solid : isSpace u = false) : ∃ x ∈ tokenize t, x.literal = [u] ∧ x.kind = .illegal := by
  have cut := tokenize_tokenization t
  obtain ⟨i, here⟩ := List.mem_iff_getElem?.mp member
  have covered : ∃ x ∈ tokenize t, x.start.offset ≤ i ∧ i < x.start.offset + x.literal.length := by
    apply Classical.byContradiction
    intro free
    have space := cut.blanks i u (Nat.zero_le i) here fun x listed => by
      by_cases before : i < x.start.offset
      · exact .inl before
      · exact .inr (Nat.le_of_not_lt fun wide => free ⟨x, listed, Nat.le_of_not_lt before, wide⟩)
    exact Bool.false_ne_true (solid.symm.trans space)
  obtain ⟨x, listed, low, high⟩ := covered
  have inside : u ∈ x.literal := by
    rw [← cut.slices x listed]
    refine List.mem_iff_getElem?.mpr ⟨i - x.start.offset, ?_⟩
    rw [List.getElem?_take_of_lt (by omega), List.getElem?_drop, ← here]
    congr 1
    omega
  rcases literal_cases listed with ⟨-, empty⟩ | ⟨-, -, clear⟩ | ⟨kind, v, single, -⟩
  · rw [empty] at inside
    cases inside
  · exact absurd (clear u inside) (by simp [blank])
  · rw [single] at inside
    exact ⟨x, listed, List.mem_singleton.mp inside ▸ single, kind⟩

/-- Tokens are blank only where the text has a blank that the lexer does not skip. -/
theorem solid_of_skipped (skipped : ∀ u ∈ t, isBlank u = true → isSpace u = true)
    (member : x ∈ tokenize t) : x.kind = .eof ∧ x.literal = [] ∨
      x.kind ≠ .eof ∧ x.literal ≠ [] ∧ ∀ u ∈ x.literal, isBlank u = false := by
  rcases literal_cases member with ended | solid | ⟨-, u, single, solid, blank⟩
  · exact .inl ended
  · exact .inr solid
  · have slice : u ∈ (t.drop x.start.offset).take x.literal.length := by
      rw [(tokenize_tokenization t).slices x member, single]
      exact List.mem_singleton_self u
    have inside : u ∈ t := List.mem_of_mem_drop (List.mem_of_mem_take slice)
    exact absurd (skipped u inside blank) (by simp [solid])

theorem shown_eq_row_iff (t : Text) :
    (tokenize t).map Token.shown = (tokenize t).map Token.row ↔
      ∀ u ∈ t, isBlank u = true → isSpace u = true := by
  rw [List.map_inj_left]
  constructor
  · intro same u member blank
    apply Classical.byContradiction
    intro solid
    obtain ⟨x, listed, single, kind⟩ :=
      exists_token_of_blank member blank (Bool.eq_false_iff.mpr solid)
    have lengths := congrArg List.length (same x listed)
    rw [shown_of_blank single blank, Token.row, if_neg (by simp [kind]), List.length_append,
      List.length_append, single, List.length_singleton] at lengths
    omega
  · intro skipped x member
    rcases solid_of_skipped skipped member with ⟨ended, empty⟩ | ⟨real, nonempty, solid⟩
    · rw [Token.shown, Token.row, if_pos ended, empty]
      rfl
    · rw [shown_of_solid nonempty solid, Token.row, if_neg real]

theorem readRow_shown_iff (t : Text) :
    ((tokenize t).map Token.shown).map readRow = (lexemes (tokenize t)).map some ↔
      ∀ u ∈ t, isBlank u = true → isSpace u = true := by
  rw [lexemes, List.map_map, List.map_map, List.map_inj_left]
  constructor
  · intro same u member blank
    apply Classical.byContradiction
    intro solid
    obtain ⟨x, listed, single, -⟩ :=
      exists_token_of_blank member blank (Bool.eq_false_iff.mpr solid)
    have read := same x listed
    rw [Function.comp_apply, shown_of_blank single blank, (readRow_name x.kind []).1] at read
    simp [Token.lexeme, single] at read
  · intro skipped x member
    rw [Function.comp_apply]
    rcases solid_of_skipped skipped member with ⟨ended, empty⟩ | ⟨real, nonempty, solid⟩
    · rw [Token.shown, empty]
      simpa [Token.lexeme, empty] using (readRow_name x.kind []).1
    · rw [shown_of_solid nonempty solid]
      exact (readRow_name x.kind x.literal).2

end Faithful

namespace Shell

/-- The command word and the argument of a line, whatever blanks are at its end. -/
theorem tokens_line (src : Text) :
    (trim (utf16 ":tokens " ++ src)).head? = some (unit ':') ∧
    commandWord (trim (utf16 ":tokens " ++ src)) = utf16 ":tokens" ∧
    commandArgument (trim (utf16 ":tokens " ++ src)) = trim src := by
  have start : trim (utf16 ":tokens " ++ src) = trimEnd (utf16 ":tokens " ++ src) := rfl
  rw [start, trimEnd_append]
  split
  next empty =>
    have blank : trim src = [] := by rw [← trim_trimEnd, empty]; rfl
    rw [blank]
    decide
  next =>
    refine ⟨rfl, rfl, ?_⟩
    rw [← trim_trimEnd src]
    rfl

theorem submit_tokens (sh : Shell) (src : Text) :
    (sh.submit (utf16 ":tokens " ++ src)).1 = [.output (listTokens (trim src))] := by
  obtain ⟨head, word, argument⟩ := tokens_line src
  unfold submit
  generalize trim (utf16 ":tokens " ++ src) = line at head word argument ⊢
  have present : line.isEmpty = false := by
    cases line with
    | nil => cases head
    | cons u line => rfl
  have run (sh : Shell) : answer line sh = .ok [.output (listTokens (trim src))] sh := by
    rw [answer, if_pos (by rw [head]; rfl), command, word, argument]
    rfl
  simp only [present, Bool.false_eq_true, if_false, run]

end Shell

/-- The command lists the tokens of its argument one to a line, in order, and their kinds can be
read off the lines. The lines show the tokens whole, and then the literals can be read off too,
exactly if every blank of the argument is one that the lexer skips. -/
theorem listing_whole_iff (sh : Shell) (src : Text) :
    ∃ text, (sh.submit (utf16 ":tokens " ++ src)).1 = [.output text] ∧
      text.splitOn (unit '\n') = (tokenize (trim src)).map Token.shown ∧
      ((text.splitOn (unit '\n')).map fun r => (readRow r).map Prod.fst) =
        (tokenize (trim src)).map (fun x => some x.kind) ∧
      (text.splitOn (unit '\n') = (tokenize (trim src)).map Token.row ↔
        ∀ u ∈ trim src, isBlank u = true → isSpace u = true) ∧
      ((text.splitOn (unit '\n')).map readRow = (lexemes (tokenize (trim src))).map some ↔
        ∀ u ∈ trim src, isBlank u = true → isSpace u = true) := by
  refine ⟨_, sh.submit_tokens src, ?_⟩
  rw [splitOn_listTokens]
  refine ⟨rfl, ?_, shown_eq_row_iff _, readRow_shown_iff _⟩
  rw [List.map_map]
  refine List.map_congr_left fun x _ => ?_
  rw [Function.comp_apply, Token.shown]
  split
  · rw [(readRow_name x.kind []).1]
    rfl
  · rw [(readRow_name x.kind x.literal).2]
    rfl

/-- The line of a no-break space shows no literal, so another blank in its place is listed alike. -/
theorem listing_hides_noBreakSpace :
    ((Shell.mk (.blank 8 []) [] [] false).submit (utf16 ":tokens a\u00a0b")).1 =
      [.output (utf16 "Ident a\nIllegal\nIdent b\nEof")] ∧
    (tokenize (utf16 "a\u00a0b")).map Token.row =
      ["Ident a", "Illegal \u00a0", "Ident b", "Eof"].map utf16 ∧
    Shell.listTokens (utf16 "a\u3000b") = Shell.listTokens (utf16 "a\u00a0b") ∧
    lexemes (tokenize (utf16 "a\u3000b")) ≠ lexemes (tokenize (utf16 "a\u00a0b")) := by
  decide +kernel

end Monkey
