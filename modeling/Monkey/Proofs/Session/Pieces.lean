import Monkey.Proofs.Eval.Sequencing
import Monkey.Proofs.Grammar.Concatenation
import Monkey.Session

/-! A source in pieces. Where every piece ends in a semicolon and none but the last returns,
evaluating the pieces one after another is evaluating the whole source: they end in the same
value or the same failure, and leave the same session. -/
namespace Monkey.Session

/-- Evaluates sources in order up to the first failure; `last` is the result if there are none. -/
def evaluateEach (last : Value) : List Text → SessionM Value
  | [] => return last
  | source :: rest => do
    let v ← evaluate source
    evaluateEach v rest

/-- Whether a statement of the source completes with a return signal: such a statement ends the
block that the statements make, and its signal is the result. -/
def returns (s : Session) (source : Text) : Bool :=
  match parseClean source with
  | .error _ => false
  | .ok p =>
    match evaluateBlock s.depth p.statements s.env s.store with
    | .ok v _ => v.isReturning
    | .error _ _ => false

/-- Whether no source but the last one returns, when they are evaluated in order up to the first
failure. -/
def runsThrough (s : Session) : List Text → Bool
  | [] => true
  | [_] => true
  | source :: rest =>
    !s.returns source && match evaluate source s with
      | .ok _ s' => s'.runsThrough rest
      | .error _ _ => true

theorem evaluate_eq (composed : Composed source body) :
    evaluate source = evaluateProgram body := by
  simp [evaluate, parseClean, parseSource, composed.parse_eq]

theorem evaluateProgram_run (body : List Node) (s : Session) :
    evaluateProgram body s = lift (Monkey.evaluateProgram s.depth body s.env) s := rfl

theorem evaluate_append {s : Session} (first : Composed source body)
    (last : Composed source' body') (plain : s.returns source = false) :
    evaluate (source ++ source') s =
      (do
        let _ ← evaluate source
        evaluate source') s := by
  have quiet : ∀ v store, evaluateBlock s.depth body s.env s.store = .ok v store →
      v.isReturning = false := by
    intro v store run
    simpa [returns, parseClean, parseSource, first.parse_eq, run] using plain
  rw [evaluate_eq (first.append last), evaluate_eq first, evaluate_eq last]
  simp only [bind, EStateM.bind, evaluateProgram_run, lift,
    evaluateProgram_append body last.nonempty quiet]
  cases Monkey.evaluateProgram s.depth body s.env s.store <;> rfl

/-- What the result is when there is no source does not matter. -/
theorem evaluateEach_composed {s : Session} (last : Value) (nonempty : sources ≠ [])
    (composed : ∀ source ∈ sources, ∃ body, Composed source body)
    (through : s.runsThrough sources = true) :
    evaluateEach last sources s = evaluate sources.flatten s := by
  induction sources generalizing s last with
  | nil => exact absurd rfl nonempty
  | cons source rest ih =>
    obtain ⟨⟨body, first⟩, others⟩ := List.forall_mem_cons.mp composed
    cases rest with
    | nil =>
      rw [List.flatten_singleton]
      simp only [evaluateEach, bind, EStateM.bind]
      cases evaluate source s <;> rfl
    | cons next rest =>
      obtain ⟨body', further⟩ := Composed.flatten (List.cons_ne_nil next rest) others
      simp only [runsThrough, Bool.and_eq_true, Bool.not_eq_true'] at through
      obtain ⟨plain, after⟩ := through
      rw [List.flatten_cons, evaluate_append first further plain]
      simp only [evaluateEach, bind, EStateM.bind]
      cases run : evaluate source s with
      | error f s' => rfl
      | ok v s' =>
        rw [run] at after
        exact ih v (List.cons_ne_nil next rest) others after

/-- Where every source parses without diagnostics and ends in a semicolon, and no source but the
last one returns, evaluating them in order up to the first failure is evaluating them as one. -/
theorem evaluateEach_eq_evaluate_flatten (s : Session) (sources : List Text)
    (nonempty : sources ≠ [])
    (complete : ∀ source ∈ sources, (∃ p, parse source = .ok p ∧ p.diagnostics = []) ∧
      (tokenize source).dropLast.getLast?.map (·.kind) = some .semicolon)
    (through : s.runsThrough sources = true) :
    evaluateEach .null sources s = evaluate sources.flatten s := by
  have composed : ∀ source ∈ sources, ∃ body, Composed source body := by
    intro source member
    obtain ⟨⟨p, run, silent⟩, ending⟩ := complete source member
    exact ⟨p.statements, .of_parse run silent ending⟩
  exact evaluateEach_composed .null nonempty composed through

/-- A function reads a name that a later piece defines again, and the last piece returns before
its last statement. -/
def pieces : List Text :=
  [utf16 "let a = 2; let f = fn(x) \x7b x * a \x7d;", utf16 " let a = 3;",
    utf16 "return f(14); let b = 1;"]

theorem evaluateEach_eq_evaluate_pieces : pieces ≠ [] ∧
    (∀ source ∈ pieces, (∃ p, parse source = .ok p ∧ p.diagnostics = []) ∧
      (tokenize source).dropLast.getLast?.map (·.kind) = some .semicolon) ∧
    (blank 9 []).runsThrough pieces = true ∧
    evaluateEach .null pieces (blank 9 []) = evaluate pieces.flatten (blank 9 []) := by
  have clean : ∀ source ∈ pieces, (parse source).toOption.map (·.diagnostics) = some [] ∧
      (tokenize source).dropLast.getLast?.map (·.kind) = some .semicolon := by decide +kernel
  have complete : ∀ source ∈ pieces, (∃ p, parse source = .ok p ∧ p.diagnostics = []) ∧
      (tokenize source).dropLast.getLast?.map (·.kind) = some .semicolon := by
    intro source member
    obtain ⟨silent, ending⟩ := clean source member
    obtain ⟨p, run, none⟩ := Option.map_eq_some_iff.mp silent
    refine ⟨⟨p, ?_, none⟩, ending⟩
    cases parsed : parse source with
    | error f => rw [parsed] at run; cases run
    | ok q =>
      rw [parsed] at run
      exact congrArg _ (Option.some.inj run)
  have through : (blank 9 []).runsThrough pieces = true := by decide +kernel
  exact ⟨by decide, complete, through,
    evaluateEach_eq_evaluate_flatten (blank 9 []) pieces (by decide) complete through⟩

end Monkey.Session
