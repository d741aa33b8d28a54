import Monkey.Proofs.Token.Lexeme

/-! Where a scanner stands. It keeps its line and its column step by step; after any steps they are
those of its offset, counted in the whole text before it. So the tokens it reads carry the line and
the column of their first unit. -/
namespace Monkey

attribute [ext] Cursor

namespace Cursor

/-- The line is the number of line feeds before the offset, and the column is the distance from the
place behind the last of them, or from the beginning. -/
structure Located (t : Text) (c : Cursor) : Prop where
  inside : c.offset ≤ t.length
  line : c.line = (t.take c.offset).count (unit '\n')
  col : (unit '\n' ∉ t.take c.offset ∧ c.col = c.offset) ∨
    ∃ i, (t.take c.offset)[i]? = some (unit '\n') ∧
      (∀ j, i < j → (t.take c.offset)[j]? ≠ some (unit '\n')) ∧ c.col = c.offset - (i + 1)

section After

variable (c : Cursor)

theorem after_cons (u : CodeUnit) (w : Text) : c.after (u :: w) = (c.past u).after w := rfl

theorem line_after (w : Text) : (c.after w).line = c.line + w.count (unit '\n') := by
  induction w generalizing c with
  | nil => rfl
  | cons u w ih =>
    rw [after_cons, ih, List.count_cons, past]
    split
    · dsimp only
      omega
    · rfl

/-- Without a line feed every unit is a column. -/
theorem col_after {w : Text} (free : unit '\n' ∉ w) : (c.after w).col = c.col + w.length := by
  induction w generalizing c with
  | nil => rfl
  | cons u w ih =>
    obtain ⟨other, free⟩ := not_or.mp (mt List.mem_cons.mpr free)
    have step : (c.past u).col = c.col + 1 := by
      rw [past, if_neg fun same => other (eq_of_beq same).symm]
    rw [after_cons, ih _ free, step, List.length_cons]
    omega

/-- Behind the last line feed the column starts anew. -/
theorem col_after_last {w : Text} {i : Nat} (here : w[i]? = some (unit '\n'))
    (last : ∀ j, i < j → w[j]? ≠ some (unit '\n')) : (c.after w).col = w.length - (i + 1) := by
  obtain ⟨inside, unit⟩ := List.getElem?_eq_some_iff.mp here
  have split : w = w.take i ++ w[i] :: w.drop (i + 1) := by
    rw [← List.drop_eq_getElem_cons inside, List.take_append_drop]
  have free : Monkey.unit '\n' ∉ w.drop (i + 1) := by
    intro member
    obtain ⟨j, at_⟩ := List.mem_iff_getElem?.mp member
    rw [List.getElem?_drop] at at_
    exact last (i + 1 + j) (by omega) at_
  rw [unit] at split
  calc (c.after w).col
      = (((c.after (w.take i)).past (Monkey.unit '\n')).after (w.drop (i + 1))).col := by
        rw [← after_cons, ← after_append, ← split]
    _ = 0 + (w.drop (i + 1)).length := col_after _ free
    _ = w.length - (i + 1) := by rw [Nat.zero_add, List.length_drop]

end After

/-- A text with a line feed has a last one. -/
theorem exists_last_lineFeed {w : Text} (member : unit '\n' ∈ w) :
    ∃ i : Nat, w[i]? = some (unit '\n') ∧ ∀ j, i < j → w[j]? ≠ some (unit '\n') := by
  induction w with
  | nil => cases member
  | cons u w ih =>
    by_cases further : unit '\n' ∈ w
    · obtain ⟨i, here, last⟩ := ih further
      refine ⟨i + 1, here, fun j later => ?_⟩
      obtain ⟨j, rfl⟩ : ∃ k, j = k + 1 := ⟨j - 1, by omega⟩
      exact last j (by omega)
    · refine ⟨0, ?_, fun j later at_ => ?_⟩
      · exact congrArg some ((List.mem_cons.mp member).resolve_right further).symm
      · obtain ⟨j, rfl⟩ : ∃ k, j = k + 1 := ⟨j - 1, by omega⟩
        exact further (List.mem_of_getElem? at_)

/-- A cursor is located in a text if passing the units before it leads there. -/
theorem located_iff {t : Text} {c : Cursor} :
    c.Located t ↔ c.offset ≤ t.length ∧ c = zero.after (t.take c.offset) := by
  have taken (inside : c.offset ≤ t.length) : (t.take c.offset).length = c.offset := by
    rw [List.length_take, Nat.min_eq_left inside]
  have lines : (zero.after (t.take c.offset)).line = (t.take c.offset).count (unit '\n') := by
    rw [line_after]
    exact Nat.zero_add _
  constructor
  · intro ⟨inside, line, col⟩
    refine ⟨inside, Cursor.ext (line.trans lines.symm) ?_ ?_⟩
    · rcases col with ⟨free, col⟩ | ⟨i, here, last, col⟩
      · rw [col, col_after _ free, taken inside]
        exact (Nat.zero_add _).symm
      · rw [col, col_after_last _ here last, taken inside]
    · rw [offset_after, taken inside]
      exact (Nat.zero_add _).symm
  · intro ⟨inside, same⟩
    have col := congrArg Cursor.col same
    refine ⟨inside, (congrArg Cursor.line same).trans lines, ?_⟩
    by_cases member : unit '\n' ∈ t.take c.offset
    · obtain ⟨i, here, last⟩ := exists_last_lineFeed member
      rw [col_after_last _ here last, taken inside] at col
      exact .inr ⟨i, here, last, col⟩
    · rw [col_after _ member, taken inside] at col
      exact .inl ⟨member, col.trans (Nat.zero_add _)⟩

end Cursor

/-- A beginning of the text whose units all satisfy `p`, and no longer one does. -/
structure LongestRun (p : CodeUnit → Bool) (t run : Text) : Prop where
  begins : run <+: t
  all : ∀ u ∈ run, p u = true
  longest : ∀ w, w <+: t → (∀ u ∈ w, p u = true) → w.length ≤ run.length

theorem longestRun_takeWhile (p : CodeUnit → Bool) (t : Text) :
    LongestRun p t (t.takeWhile p) where
  begins := List.takeWhile_prefix p
  all := List.all_eq_true.mp List.all_takeWhile
  longest w begins all := by
    obtain ⟨rest, rfl⟩ := begins
    rw [List.takeWhile_append_of_pos all, List.length_append]
    omega

namespace Scanner

/-- What can be done with a scanner. -/
inductive Step where
  | peek (ahead : Int)
  | advance
  | atEnd
  | consumeWhile (p : CodeUnit → Bool)

/-- The scanner after a step; looking changes nothing. -/
def Step.after (s : Scanner) : Step → Scanner
  | peek _ => s
  | advance => s.advance.2
  | atEnd => s
  | consumeWhile p => (s.consumeWhile p).2

def afterAll (s : Scanner) (steps : List Step) : Scanner := steps.foldl Step.after s

/-- The scanner is somewhere in the text and has counted what is behind it. -/
structure Stands (t : Text) (s : Scanner) : Prop where
  text : s.behind.reverse ++ s.rest = t
  counted : s.position = Cursor.zero.after s.behind.reverse

theorem stands_ofText (t : Text) : (ofText t).Stands t := ⟨rfl, rfl⟩

namespace Stands

variable {t : Text} {s : Scanner} (stands : s.Stands t)
include stands

theorem moveOn (begins : taken <+: s.rest) : (s.moveOn taken).Stands t where
  text := (s.moveOn_text taken begins).trans stands.text
  counted := by
    show s.position.after taken = _
    rw [stands.counted, ← Cursor.after_append, Scanner.moveOn, List.reverse_append,
      List.reverse_reverse]

theorem after (step : Step) : (step.after s).Stands t := by
  cases step with
  | peek ahead => exact stands
  | advance =>
    show s.advance.2.Stands t
    unfold Scanner.advance
    split
    next => exact stands
    next u rest here =>
      refine stands.moveOn ?_
      rw [here]
      exact ⟨rest, rfl⟩
  | atEnd => exact stands
  | consumeWhile p => exact stands.moveOn (List.takeWhile_prefix p)

theorem afterAll (steps : List Step) : (s.afterAll steps).Stands t := by
  induction steps generalizing s with
  | nil => exact stands
  | cons step steps ih => exact ih (stands.after step)

theorem offset : s.position.offset = s.behind.length := by
  rw [stands.counted, Cursor.offset_after, List.length_reverse]
  exact Nat.zero_add _

theorem rest_eq : s.rest = t.drop s.position.offset := by
  rw [stands.offset, ← stands.text, ← s.behind.length_reverse, List.drop_left]

theorem located : s.position.Located t := by
  have behind : s.behind.reverse = t.take s.position.offset := by
    rw [stands.offset, ← stands.text, ← s.behind.length_reverse, List.take_left]
  refine Cursor.located_iff.mpr ⟨?_, by rw [← behind]; exact stands.counted⟩
  rw [stands.offset, ← stands.text, List.length_append, List.length_reverse]
  exact Nat.le_add_right _ _

theorem unit_eq : t[s.position.offset]? = s.rest.head? := by
  rw [stands.rest_eq, List.head?_drop]

theorem advance_eq : s.advance.1 = t[s.position.offset]? ∧
    s.advance.2.position.offset = min (s.position.offset + 1) t.length := by
  have inside := stands.located.inside
  have left := congrArg List.length stands.rest_eq
  rw [List.length_drop] at left
  rw [stands.unit_eq]
  unfold Scanner.advance
  split
  next ended =>
    rw [ended, List.length_nil] at left
    refine ⟨by rw [ended]; rfl, ?_⟩
    show s.position.offset = _
    omega
  next u rest here =>
    rw [here, List.length_cons] at left
    refine ⟨by rw [here]; rfl, ?_⟩
    show (s.position.after [u]).offset = _
    rw [Cursor.offset_after, List.length_singleton]
    omega

/-- The next token starts where the scanner stands behind the blanks, with the unit there. -/
theorem nextToken : s.nextToken.2.Stands t ∧ s.nextToken.1.start.Located t ∧
    s.nextToken.1.literal <+: t.drop s.nextToken.1.start.offset ∧
    s.nextToken.1.literal.head? = t[s.nextToken.1.start.offset]? := by
  have skipped := stands.after (.consumeWhile isSpace)
  unfold Scanner.nextToken
  change Stands t (s.consumeWhile isSpace).2 at skipped
  generalize (s.consumeWhile isSpace).2 = s at skipped ⊢
  have unit := skipped.unit_eq
  cases here : s.rest with
  | nil =>
    have read : s.readToken = (.endOfInput s.position, s) := by simp only [readToken, here]
    rw [here] at unit
    rw [read]
    exact ⟨skipped, skipped.located, List.nil_prefix, unit.symm⟩
  | cons u rest =>
    have read : s.readToken = (⟨(lexeme u rest).1, (lexeme u rest).2, s.position⟩,
        s.moveOn (lexeme u rest).2) := by simp only [readToken, here]
    have begins := lexeme_isPrefix u rest
    rw [← here] at begins
    rw [read]
    refine ⟨skipped.moveOn begins, skipped.located, skipped.rest_eq ▸ begins, ?_⟩
    obtain ⟨v, y, literal⟩ := List.exists_cons_of_ne_nil (lexeme_ne_nil u rest)
    rw [literal, here] at begins
    dsimp only
    rw [unit, here, literal, (List.cons_prefix_cons.mp begins).1]
    rfl

theorem take (n : Nat) : ∀ x ∈ s.take n, x.start.Located t ∧
    x.literal <+: t.drop x.start.offset ∧ x.literal.head? = t[x.start.offset]? := by
  induction n generalizing s with
  | zero => nofun
  | succ n ih =>
    obtain ⟨further, here⟩ := stands.nextToken
    exact List.forall_mem_cons.mpr ⟨here, ih further⟩

end Stands

/-- What a scanner of the text answers at its offset: the place is the one with that offset, the
unit is the one there, runs are as long as they can be, and the tokens from there on stand where
they say, with their first unit. -/
structure Accurate (t : Text) (s : Scanner) : Prop where
  located : s.position.Located t
  determined (c : Cursor) : c.Located t → c.offset = s.position.offset → c = s.position
  advance : s.advance.1 = t[s.position.offset]? ∧
    s.advance.2.position.offset = min (s.position.offset + 1) t.length
  run (p : CodeUnit → Bool) : LongestRun p (t.drop s.position.offset) (s.consumeWhile p).1
  moves (p : CodeUnit → Bool) :
    (s.consumeWhile p).2.position.offset = s.position.offset + (s.consumeWhile p).1.length
  tokens (n : Nat) : ∀ x ∈ s.take n, x.start.Located t ∧
    x.literal <+: t.drop x.start.offset ∧ x.literal.head? = t[x.start.offset]?

theorem Stands.accurate {s : Scanner} (stands : s.Stands t) : s.Accurate t where
  located := stands.located
  determined c located same := by
    rw [(Cursor.located_iff.mp located).2, (Cursor.located_iff.mp stands.located).2, same,
      ← (Cursor.located_iff.mp stands.located).2]
  advance := stands.advance_eq
  run p := by
    rw [← stands.rest_eq]
    exact longestRun_takeWhile p s.rest
  moves p := s.position.offset_after _
  tokens := stands.take

end Scanner

/-- Whatever steps a scanner of a text has been through, its position is the one with its offset,
and what it gives next stands there in the text. -/
theorem scanner_stays_accurate (t : Text) (steps : List Scanner.Step) :
    ((Scanner.ofText t).afterAll steps).Accurate t :=
  ((Scanner.stands_ofText t).afterAll steps).accurate

example : ((Scanner.ofText (utf16 "a\n \n==b")).afterAll
    [.consumeWhile isLetter, .advance, .peek 2, .consumeWhile isSpace, .advance,
      .advance]).position = ⟨2, 2, 6⟩ := by decide

end Monkey
