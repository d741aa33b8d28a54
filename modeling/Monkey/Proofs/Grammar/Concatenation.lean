import Monkey.Proofs.Grammar.Acceptance
import Monkey.Proofs.Token.Splicing

/-! Sources one behind the other. Behind a source that ends in a semicolon every source is read
and parsed as it is on its own, so that the statements of the whole are the statements of the
parts in order. -/
namespace Monkey

section Places

variable (base : Cursor)

def Mark.translate (x : Mark kind) : Mark kind := ⟨x.1.translate base, x.2⟩

/-- Tokens of a text that starts at `base`. -/
def shifted (ts : List Token) : List Token := ts.map (·.translate base)

/-- Trees with their tokens, in a text that starts at `base`. -/
def shiftedParts (parts : List (Node × List Token)) : List (Node × List Token) :=
  parts.map fun part => (part.1, shifted base part.2)

@[simp] theorem shifted_nil : shifted base [] = [] := rfl

@[simp] theorem shifted_cons (t : Token) (ts : List Token) :
    shifted base (t :: ts) = t.translate base :: shifted base ts := rfl

@[simp] theorem shifted_append (ts us : List Token) :
    shifted base (ts ++ us) = shifted base ts ++ shifted base us := List.map_append

@[simp] theorem kindAhead_shifted (ts : List Token) :
    kindAhead (shifted base ts) = kindAhead ts := by
  cases ts <;> rfl

theorem nodes_shiftedParts (parts : List (Node × List Token)) :
    (shiftedParts base parts).map (·.1) = parts.map (·.1) := by
  simp [shiftedParts]

theorem words_shiftedParts (parts : List (Node × List Token)) :
    (shiftedParts base parts).map (·.2) = (parts.map (·.2)).map (shifted base) := by
  simp [shiftedParts]

theorem forall_shiftedParts {R : Node → List Token → Prop} {parts : List (Node × List Token)}
    (each : ∀ part ∈ parts, R part.1 (shifted base part.2)) :
    ∀ part ∈ shiftedParts base parts, R part.1 part.2 :=
  List.forall_mem_map.mpr each

theorem Commas.translate (list : Commas words v) :
    Commas (words.map (shifted base)) (shifted base v) := by
  induction list with
  | done => exact .done
  | trailing c => exact .trailing (c.translate base)
  | next c _ ih => simpa using .next (c.translate base) ih

theorem Listed.translate (list : Listed words v) :
    Listed (words.map (shifted base)) (shifted base v) := by
  cases list with
  | empty => exact .empty
  | items list => simpa using .items (list.translate base)

theorem Sequence.translate (list : Sequence words v) :
    Sequence (words.map (shifted base)) (shifted base v) := by
  induction list with
  | done => exact .done
  | ended semi _ ih => simpa using .ended (semi.translate base) ih
  | bare _ notParen notMinus ih =>
    simpa using .bare ih (by simpa using notParen) (by simpa using notMinus)

theorem Closed.translate (closed : Closed ts) : Closed (shifted base ts) := by
  intro x member
  rw [shifted, List.getLast?_map, Option.mem_def, Option.map_eq_some_iff] at member
  obtain ⟨y, last, rfl⟩ := member
  exact closed y last

/-- A spelling says nothing about places. -/
theorem Spells.translate (spelled : Spells slot n w) : Spells slot n (shifted base w) := by
  induction spelled with
  | grouped lp rp _ inner =>
    simpa using .grouped (lp.translate base) (rp.translate base) inner
  | ident x => exact .ident (x.translate base)
  | int x value small => exact .int (x.translate base) value small
  | yes x => exact .yes (x.translate base)
  | no x => exact .no (x.translate base)
  | unary op kind fits _ operand => exact .unary (op.translate base) kind fits operand
  | binary op level fits _ _ left right =>
    simpa using .binary (op.translate base) level fits left right
  | call lp rp args fits _ _ list callee each =>
    have listed := list.translate base
    rw [← words_shiftedParts] at listed
    rw [← nodes_shiftedParts base]
    simpa using .call (lp.translate base) (rp.translate base) (shiftedParts base args)
      fits callee (forall_shiftedParts base each) listed
  | ifThen kw lp rp lb rb body _ _ list condition each =>
    have sequence := list.translate base
    rw [← words_shiftedParts] at sequence
    rw [← nodes_shiftedParts base]
    simpa using .ifThen (kw.translate base) (lp.translate base) (rp.translate base)
      (lb.translate base) (rb.translate base) (shiftedParts base body) condition
      (forall_shiftedParts base each) sequence
  | ifElse kw lp rp lb rb other lb' rb' body body' _ _ list _ list' condition each each' =>
    have sequence := list.translate base
    have sequence' := list'.translate base
    rw [← words_shiftedParts] at sequence sequence'
    rw [← nodes_shiftedParts base, ← nodes_shiftedParts base body']
    simpa using .ifElse (kw.translate base) (lp.translate base) (rp.translate base)
      (lb.translate base) (rb.translate base) (other.translate base)
      (lb'.translate base) (rb'.translate base) (shiftedParts base body)
      (shiftedParts base body') condition (forall_shiftedParts base each) sequence
      (forall_shiftedParts base each') sequence'
  | fnLit kw lp rp lb rb params body names _ list each =>
    have sequence := list.translate base
    have listed := names.translate base
    have params' : (params.map fun x => [x.1]).map (shifted base) =
        (params.map (Mark.translate base)).map fun x => [x.1] := by
      simp [Mark.translate]
    have literals : params.map (·.1.literal) =
        (params.map (Mark.translate base)).map (·.1.literal) := by
      simp [Mark.translate, Token.translate]
    rw [params'] at listed
    rw [← words_shiftedParts] at sequence
    rw [← nodes_shiftedParts base, literals]
    simp only [shifted_cons, shifted_append, shifted_nil]
    exact .fnLit (kw.translate base) (lp.translate base) (rp.translate base) (lb.translate base)
      (rb.translate base) (params.map (Mark.translate base)) (shiftedParts base body) listed
      (forall_shiftedParts base each) sequence
  | letStmt kw x eq _ value =>
    exact .letStmt (kw.translate base) (x.translate base) (eq.translate base) value
  | returnStmt kw _ value => exact .returnStmt (kw.translate base) value
  | exprStmt _ value => exact .exprStmt value

theorem SpellsBody.translate (spelled : SpellsBody body v) : SpellsBody body (shifted base v) := by
  obtain ⟨parts, rfl, each, list⟩ := spelled
  have sequence := list.translate base
  rw [← words_shiftedParts] at sequence
  exact ⟨shiftedParts base parts, nodes_shiftedParts base parts,
    forall_shiftedParts base fun part member => (each part member).translate base, sequence⟩

end Places

section Ends

theorem Mark.not_closed (x : Mark kind) (other : kind ≠ .semicolon) : ¬ Closed [x.1] := by
  intro closed
  exact other (x.2.symm.trans (closed x.1 rfl))

/-- The semicolon of a statement is no part of its spelling. -/
theorem Spells.not_closed (spelled : Spells slot n w) : ¬ Closed w := by
  intro closed
  induction spelled with
  | grouped _ rp => exact rp.not_closed (by decide) closed.tail.rest
  | ident x => exact x.not_closed (by decide) closed
  | int x => exact x.not_closed (by decide) closed
  | yes x => exact x.not_closed (by decide) closed
  | no x => exact x.not_closed (by decide) closed
  | unary _ _ _ _ ih => exact ih closed.tail
  | binary _ _ _ _ _ _ ih => exact ih closed.rest.tail
  | call _ rp => exact rp.not_closed (by decide) closed.rest.tail.rest
  | ifThen _ _ _ _ rb => exact rb.not_closed (by decide) closed.tail.tail.rest.tail.tail.rest
  | ifElse _ _ _ _ _ _ _ rb' =>
    exact rb'.not_closed (by decide) closed.tail.tail.rest.tail.tail.rest.tail.tail.tail.rest
  | fnLit _ _ _ _ rb => exact rb.not_closed (by decide) closed.tail.tail.rest.tail.tail.rest
  | letStmt _ _ _ _ ih => exact ih closed.tail.tail.tail
  | returnStmt _ _ ih => exact ih closed.tail
  | exprStmt _ ih => exact ih closed

/-- Statements behind statements of which the last one has its semicolon. -/
theorem SpellsBody.append (first : SpellsBody body v) (closed : Closed v)
    (last : SpellsBody body' v') : SpellsBody (body ++ body') (v ++ v') := by
  obtain ⟨parts, rfl, each, list⟩ := first
  induction parts generalizing v with
  | nil =>
    cases list
    exact last
  | cons part parts ih =>
    obtain ⟨spelled, others⟩ := List.forall_mem_cons.mp each
    cases list with
    | ended semi list =>
      rw [List.append_assoc]
      exact .ended spelled semi (ih closed.rest.tail others list)
    | @bare _ u _ list notParen notMinus =>
      -- a statement without a semicolon has another one behind it
      have more : u ≠ [] := by
        rintro rfl
        rw [List.append_nil] at closed
        exact spelled.not_closed closed
      rw [List.append_assoc]
      exact .bare spelled (ih closed.rest others list)
        (by rwa [kindAhead_append more]) (by rwa [kindAhead_append more])

end Ends

/-- The source reads to its end with a semicolon as the last token, and its tokens spell the
statements. -/
structure Composed (source : Text) (body : List Node) : Prop where
  nonempty : body ≠ []
  spelled : ∃ ts c, Reads .zero source ts c [] ∧ Closed ts ∧ SpellsBody body ts

namespace Composed

theorem append (first : Composed source body) (last : Composed source' body') :
    Composed (source ++ source') (body ++ body') := by
  obtain ⟨ts, c, read, closed, spelled⟩ := first.spelled
  obtain ⟨us, c', read', closed', spelled'⟩ := last.spelled
  constructor
  · simp [first.nonempty]
  · exact ⟨ts ++ shifted c us, c.translate c', read.splice closed read',
      closed.append (closed'.translate c), spelled.append closed (spelled'.translate c)⟩

theorem flatten (nonempty : sources ≠ []) (each : ∀ source ∈ sources, ∃ body, Composed source body) :
    ∃ body, Composed sources.flatten body := by
  induction sources with
  | nil => exact absurd rfl nonempty
  | cons source sources ih =>
    obtain ⟨⟨body, first⟩, others⟩ := List.forall_mem_cons.mp each
    cases sources with
    | nil => exact ⟨body, by simpa using first⟩
    | cons next sources =>
      obtain ⟨body', rest⟩ := ih (List.cons_ne_nil next sources) others
      exact ⟨body ++ body', first.append rest⟩

theorem parse_eq (composed : Composed source body) : parse source = .ok ⟨body, [], 0⟩ := by
  obtain ⟨ts, c, read, -, spelled⟩ := composed.spelled
  rw [parse, tokenize_eq read]
  exact run_spelling spelled rfl

/-- A parse without diagnostics of a source that ends in a semicolon. -/
theorem of_parse (run : parse source = .ok p) (silent : p.diagnostics = [])
    (ending : (tokenize source).dropLast.getLast?.map (·.kind) = some .semicolon) :
    Composed source p.statements := by
  obtain ⟨ts, c, read, same⟩ := tokenize_reads source
  obtain ⟨-, w, tail, split, ended, spelled⟩ := spelling_of_run run silent
  rw [same] at split
  have real : ∀ t ∈ ts, t.kind ≠ .eof := fun t member => (read.cut t member).kind_ne_eof
  obtain rfl := spelled.eq_of_append real split ended rfl
  rw [same, List.dropLast_concat, Option.map_eq_some_iff] at ending
  obtain ⟨x, last, kind⟩ := ending
  constructor
  · intro none
    obtain ⟨parts, same, -, list⟩ := spelled
    obtain rfl := List.map_eq_nil_iff.mp (same.trans none)
    cases list
    cases last
  · refine ⟨w, c, read, ?_, spelled⟩
    intro y member
    rw [last] at member
    obtain rfl := Option.some.inj member
    exact kind

end Composed
end Monkey
