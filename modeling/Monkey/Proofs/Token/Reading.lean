import Monkey.Proofs.Token.Lexeme

/-! Reading a text token by token. The judgment keeps the text that is left in view, so
that readings compose without splitting a word, a digit run or a pair; `tokenize` is the
one reading that leaves nothing. -/
namespace Monkey

/-- The text `t` at `c` reads as `ts` and leaves `rest` at `c'`. -/
inductive Reads : Cursor → Text → List Token → Cursor → Text → Prop where
  | done : Reads c t [] c t
  | space : isSpace u = true → Reads (c.past u) t ts c' rest → Reads c (u :: t) ts c' rest
  | token : isSpace u = false → lexeme u t = (kind, literal) → u :: t = literal ++ tail →
      Reads (c.after literal) tail ts c' rest →
      Reads c (u :: t) (⟨kind, literal, c⟩ :: ts) c' rest

namespace Reads

theorem append (first : Reads c t ts middle left) (last : Reads middle left us c' rest) :
    Reads c t (ts ++ us) c' rest := by
  induction first with
  | done => exact last
  | space blank _ ih => exact .space blank (ih last)
  | token solid cut split _ ih => exact .token solid cut split (ih last)

theorem spaces (run : Text) (blank : ∀ u ∈ run, isSpace u = true)
    (read : Reads (c.after run) t ts c' rest) : Reads c (run ++ t) ts c' rest := by
  induction run generalizing c with
  | nil => exact read
  | cons u run ih =>
    refine .space (blank u (by simp)) (ih (fun v member => blank v (by simp [member])) ?_)
    simpa only [Cursor.after, List.foldl_cons] using read

/-- A text reads in one way only. -/
theorem unique (first : Reads c t ts c₁ []) (second : Reads c t us c₂ []) :
    ts = us ∧ c₁ = c₂ := by
  generalize ended : ([] : Text) = rest at first
  induction first generalizing us c₂ with
  | done =>
    subst ended
    cases second
    exact ⟨rfl, rfl⟩
  | space blank _ ih =>
    cases second with
    | space _ second => exact ih second ended
    | token solid _ _ _ => simp [blank] at solid
  | token solid cut split _ ih =>
    cases second with
    | space blank _ => simp [blank] at solid
    | token _ cut' split' second =>
      obtain ⟨rfl, rfl⟩ := Prod.mk.inj (cut.symm.trans cut')
      obtain rfl := List.append_cancel_left (split.symm.trans split')
      obtain ⟨rfl, rfl⟩ := ih second ended
      exact ⟨rfl, rfl⟩

theorem cut (read : Reads c t ts c' rest) : ∀ x ∈ ts, Cut x.kind x.literal := by
  induction read with
  | done => intro x member; cases member
  | space _ _ ih => exact ih
  | @token u t kind literal _ _ _ _ _ _ cut _ _ ih =>
    intro x member
    rcases List.mem_cons.mp member with rfl | member
    · have whole := lexeme_cut u t
      rwa [cut] at whole
    · exact ih x member

end Reads

namespace Scanner

variable (s : Scanner)

theorem reads_of_skipped (read : Reads (s.consumeWhile isSpace).2.position
    (s.consumeWhile isSpace).2.rest ts c left) : Reads s.position s.rest ts c left := by
  rw [rest_consumeWhile] at read
  have whole := Reads.spaces (s.rest.takeWhile isSpace)
    (fun u member => List.all_eq_true.mp List.all_takeWhile u member) read
  rwa [List.takeWhile_append_dropWhile] at whole

theorem head_dropWhile_solid {t : Text} (head : t.dropWhile isSpace = u :: tail) :
    isSpace u = false := by
  have first := List.head?_dropWhile_not isSpace t
  rw [head] at first
  simpa using first

/-- The next token is the end of input behind blanks, or a token that a reading begins with. -/
theorem nextToken_cases :
    (∃ c, s.nextToken.1 = .endOfInput c ∧ Reads s.position s.rest [] c []) ∨
      s.nextToken.1.kind ≠ .eof ∧ s.nextToken.2.rest.length < s.rest.length ∧
        ∀ ts c left, Reads s.nextToken.2.position s.nextToken.2.rest ts c left →
          Reads s.position s.rest (s.nextToken.1 :: ts) c left := by
  cases skipped : (s.consumeWhile isSpace).2.rest with
  | nil =>
    refine .inl ⟨(s.consumeWhile isSpace).2.position, ?_, s.reads_of_skipped ?_⟩
    · simp only [nextToken, readToken, skipped]
    · rw [skipped]
      exact .done
  | cons u tail =>
    cases cut : lexeme u tail with
    | mk kind literal =>
      obtain ⟨after, split⟩ := lexeme_isPrefix u tail
      rw [cut] at split
      have next : s.nextToken = (⟨kind, literal, (s.consumeWhile isSpace).2.position⟩,
          (s.consumeWhile isSpace).2.moveOn literal) := by
        simp [nextToken, readToken, skipped, cut]
      have moved : s.nextToken.2.rest = after := by
        simp [next, moveOn, skipped, ← split]
      refine .inr ⟨?_, ?_, ?_⟩
      · have real := lexeme_kind_ne_eof u tail
        rw [cut] at real
        simpa only [next] using real
      · have whole := congrArg List.length split
        have dropped := (List.dropWhile_suffix isSpace (l := s.rest)).length_le
        rw [← rest_consumeWhile, skipped] at dropped
        have taken : literal ≠ [] := by simpa [cut] using lexeme_ne_nil u tail
        have positive := List.length_pos_iff.mpr taken
        simp only [List.length_append] at whole
        rw [moved]
        omega
      · intro ts c left read
        have solid : isSpace u = false :=
          head_dropWhile_solid ((s.rest_consumeWhile isSpace).symm.trans skipped)
        rw [moved] at read
        apply s.reads_of_skipped
        rw [skipped, next]
        refine .token solid cut split.symm ?_
        simpa only [next, moveOn] using read

/-- The scanner reads a text to its end. -/
theorem tokens_reads (fuel : Nat) (enough : s.rest.length ≤ fuel) :
    ∃ ts c, Reads s.position s.rest ts c [] ∧ tokens fuel s = ts ++ [.endOfInput c] := by
  induction fuel generalizing s with
  | zero =>
    rcases s.nextToken_cases with ⟨c, ended, read⟩ | ⟨-, shorter, -⟩
    · exact ⟨[], c, read, by rw [tokens, ended]; rfl⟩
    · omega
  | succ fuel ih =>
    rcases s.nextToken_cases with ⟨c, ended, read⟩ | ⟨real, shorter, begins⟩
    · refine ⟨[], c, read, ?_⟩
      rw [tokens, ended]
      exact if_pos rfl
    · obtain ⟨ts, c, read, run⟩ := ih s.nextToken.2 (by omega)
      refine ⟨s.nextToken.1 :: ts, c, begins ts c [] read, ?_⟩
      rw [tokens, if_neg real, run]
      rfl

end Scanner

theorem tokenize_reads (t : Text) :
    ∃ ts c, Reads .zero t ts c [] ∧ tokenize t = ts ++ [.endOfInput c] :=
  (Scanner.ofText t).tokens_reads t.length (Nat.le_refl _)

theorem tokenize_lexed (t : Text) : ∀ x ∈ tokenize t, x.Lexed := by
  obtain ⟨ts, c, read, same⟩ := tokenize_reads t
  intro x member
  rw [same] at member
  rcases List.mem_append.mp member with member | member
  · exact .inr (read.cut x member)
  · rw [List.mem_singleton.mp member]
    exact .inl rfl

theorem tokenize_eq (read : Reads .zero t ts c []) : tokenize t = ts ++ [.endOfInput c] := by
  obtain ⟨us, c', read', same⟩ := tokenize_reads t
  obtain ⟨rfl, rfl⟩ := read.unique read'
  exact same

/-- Wherever the text stands before what `follow` allows, it reads as tokens with `P`. -/
def Lexes (follow : Text → Prop) (t : Text) (P : List Token → Prop) : Prop :=
  ∀ c rest, follow rest → ∃ ts c', Reads c (t ++ rest) ts c' rest ∧ P ts

/-- A text that no word and no digit run before it goes on into. -/
def Loose (t : Text) : Prop := (t.head?.all fun u => !(isLetter u || isDigit u)) = true

namespace Lexes

variable {follow follow' : Text → Prop} {P Q : List Token → Prop}

theorem append (first : Lexes follow t P) (last : Lexes follow' t' Q)
    (fits : ∀ rest, follow' rest → follow (t' ++ rest)) :
    Lexes follow' (t ++ t') fun ts => ∃ u v, P u ∧ Q v ∧ ts = u ++ v := by
  intro c rest good
  obtain ⟨u, middle, read, one⟩ := first c (t' ++ rest) (fits rest good)
  obtain ⟨v, c', read', two⟩ := last middle rest good
  rw [List.append_assoc]
  exact ⟨u ++ v, c', read.append read', u, v, one, two, rfl⟩

theorem weaken (lexes : Lexes follow t P) (imp : ∀ ts, P ts → Q ts) : Lexes follow t Q := by
  intro c rest good
  obtain ⟨ts, c', read, holds⟩ := lexes c rest good
  exact ⟨ts, c', read, imp ts holds⟩

theorem restrict (lexes : Lexes follow t P) (fits : ∀ rest, follow' rest → follow rest) :
    Lexes follow' t P := fun c rest good => lexes c rest (fits rest good)

end Lexes

theorem takeWhile_append_loose {p : CodeUnit → Bool} {x : Text} (run : ∀ u ∈ x, p u = true)
    (stop : ∀ u ∈ rest.head?, p u = false) : (x ++ rest).takeWhile p = x := by
  rw [List.takeWhile_append_of_pos run]
  cases rest with
  | nil => exact List.append_nil x
  | cons u rest => rw [List.takeWhile_cons_of_neg (by simp [stop u rfl]), List.append_nil]

theorem Loose.stops (loose : Loose t) :
    ∀ u ∈ t.head?, isLetter u = false ∧ isDigit u = false := by
  intro u head
  rw [Loose, head] at loose
  simpa using loose

theorem lexeme_word (letters : ∀ v ∈ u :: x, isLetter v = true)
    (stop : ∀ v ∈ rest.head?, isLetter v = false) :
    lexeme u (x ++ rest) = (.ofWord (u :: x), u :: x) := by
  obtain ⟨letter, letters⟩ := List.forall_mem_cons.mp letters
  rw [lexeme, if_pos letter, takeWhile_append_loose letters stop]

theorem lexeme_numeral (digits : ∀ v ∈ u :: x, isDigit v = true)
    (stop : ∀ v ∈ rest.head?, isDigit v = false) : lexeme u (x ++ rest) = (.int, u :: x) := by
  obtain ⟨digit, digits⟩ := List.forall_mem_cons.mp digits
  rw [lexeme, if_neg (by simp [not_letter_of_digit digit]), if_pos digit,
    takeWhile_append_loose digits stop]

/-- A run of letters before a loose text is one word. -/
theorem lexes_word (nonempty : x ≠ []) (letters : ∀ u ∈ x, isLetter u = true) :
    Lexes Loose x fun ts => ∃ c, ts = [⟨.ofWord x, x, c⟩] := by
  intro c rest loose
  cases x with
  | nil => exact absurd rfl nonempty
  | cons u x =>
    have cut := lexeme_word letters fun v head => (loose.stops v head).1
    exact ⟨_, _, .token (not_space_of_letter (letters u (by simp))) cut rfl .done, c, rfl⟩

theorem lexes_numeral (numeral : IsNumeral x) :
    Lexes Loose x fun ts => ∃ c, ts = [⟨.int, x, c⟩] := by
  intro c rest loose
  obtain ⟨nonempty, digits⟩ := numeral
  cases x with
  | nil => exact absurd rfl nonempty
  | cons u x =>
    have cut := lexeme_numeral digits fun v head => (loose.stops v head).2
    exact ⟨_, _, .token (not_space_of_digit (digits u (by simp))) cut rfl .done, c, rfl⟩

end Monkey
