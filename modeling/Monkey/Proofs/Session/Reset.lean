import Monkey.Proofs.Session.Likeness

/-! A reset makes a session anew. Whatever it was asked before, and however that ended, a session
that could start can be reset; from then on it answers every list of requests, step by step, as a
session does that has just started with the same entries. -/
namespace Monkey.Session

/-- What a session can be asked. A program may be any list of nodes. -/
inductive Action where
  | evaluate (source : Text)
  | evaluateProgram (body : List Node)
  | parse (source : Text)
  | lookup (name : Text)
  | reset

/-- What is seen of an answer: the text of a value, the text and the diagnostics of a parse, the
text of a binding if there is one, or a report. -/
inductive Answer where
  | value (text : Except Report Text)
  | parse (text : Except Report Text) (diagnostics : List Diagnostic)
  | binding (text : Option (Except Report Text))
  | done
  | failure (report : Report)

def Action.run : Action → SessionM Answer
  | evaluate source => do
    let v ← Session.evaluate source
    return .value (shown v.print)
  | evaluateProgram body => do
    let v ← Session.evaluateProgram body
    return .value (shown v.print)
  | parse source =>
    match parseSource source with
    | .ok p => return .parse (shown p.program.print) p.diagnostics
    | .error f => throw f
  | lookup name => do
    let s ← get
    return .binding ((s.lookup name).map (shown ·.print))
  | reset => do
    Session.reset
    return .done

/-- The answer to a request and the session after it, granted or not. -/
def perform (s : Session) (a : Action) : Answer × Session :=
  match a.run s with
  | .ok answer s' => (answer, s')
  | .error f s' => (.failure f.report, s')

/-- All that is seen of a list of requests: each answer, and the global bindings after it. -/
def observe (s : Session) : List Action → List (Answer × List (Text × Except Report Text))
  | [] => []
  | a :: rest => ((s.perform a).1, (s.perform a).2.bindings.shown) :: (s.perform a).2.observe rest

variable {depth : Nat} {entries : List Text}

theorem mirrors_run (a : Action) : Mirrors depth entries a.run a.run Eq := by
  cases a with
  | evaluate source =>
    apply (mirrors_evaluate source).bind
    intro v w same
    exact .pure (by rw [same])
  | evaluateProgram body =>
    apply (mirrors_evaluateProgram body).bind
    intro v w same
    exact .pure (by rw [same])
  | parse source =>
    cases parsed : parseSource source with
    | ok p =>
      simp only [Action.run, parsed]
      exact .pure rfl
    | error f =>
      simp only [Action.run, parsed]
      exact .fail f
  | lookup name =>
    intro s t alike
    exact .ok alike (congrArg Answer.binding (alike.lookup name))
  | reset => exact mirrors_reset.bind fun _ _ _ => .pure rfl

/-- Like sessions give the same answer and stay alike. -/
theorem Alike.perform (alike : Alike depth entries s t) (a : Action) :
    (s.perform a).1 = (t.perform a).1 ∧ Alike depth entries (s.perform a).2 (t.perform a).2 := by
  have ends := mirrors_run a s t alike
  unfold Session.perform
  generalize a.run s = x at ends ⊢
  generalize a.run t = y at ends ⊢
  cases ends with
  | ok alike same => exact ⟨same, alike⟩
  | error alike same => exact ⟨congrArg Answer.failure same, alike⟩

theorem Alike.performAll (alike : Alike depth entries s t) (actions : List Action) :
    Alike depth entries (actions.foldl (fun s a => (s.perform a).2) s)
      (actions.foldl (fun s a => (s.perform a).2) t) := by
  induction actions generalizing s t with
  | nil => exact alike
  | cons a actions ih => exact ih (alike.perform a).2

/-- Nothing that is asked tells like sessions apart. -/
theorem Alike.observe (alike : Alike depth entries s t) (actions : List Action) :
    s.observe actions = t.observe actions := by
  induction actions generalizing s t with
  | nil => rfl
  | cons a actions ih =>
    obtain ⟨same, next⟩ := alike.perform a
    simp only [Session.observe, same, next.bindings, ih next]

/-- A session that could start can be reset after any requests, and then shows what a session
shows that has just started with the same entries. -/
theorem reset_observe_eq (depth : Nat) (entries : List Text) (fresh : Session)
    (created : create depth entries = .ok fresh) (before : List Action) :
    ∃ s, reset (before.foldl (fun s a => (s.perform a).2) fresh) = .ok () s ∧
      s.bindings.shown = fresh.bindings.shown ∧
      ∀ actions, s.observe actions = fresh.observe actions := by
  have used := (alike_of_create created).performAll before
  obtain ⟨s, run, alike⟩ := reset_of_create created used
  exact ⟨s, run, alike.bindings, alike.observe⟩

/-- Requests that redefine a name, fail in the middle of a source, hold code that no source has,
reset the session, and define a name. -/
def mixedActions : List Action :=
  [.evaluate (utf16 "let a = 2; a / 0"), .evaluateProgram [.unknown (utf16 "while")], .reset,
    .parse (utf16 "let"), .evaluate (utf16 "let b = fn(x) \x7b a + x \x7d")]

theorem reset_observe_eq_mixed : ∃ fresh s, create 8 [utf16 "let a = 1;"] = .ok fresh ∧
    (mixedActions.foldl (fun s a => (s.perform a).2) fresh).bindings.names =
      [utf16 "a", utf16 "b"] ∧
    reset (mixedActions.foldl (fun s a => (s.perform a).2) fresh) = .ok () s ∧
    s.bindings.shown = fresh.bindings.shown ∧
    ∀ actions, s.observe actions = fresh.observe actions := by
  have started : (create 8 [utf16 "let a = 1;"]).toOption.map (fun fresh =>
      (mixedActions.foldl (fun s a => (s.perform a).2) fresh).bindings.names) =
        some [utf16 "a", utf16 "b"] := by decide +kernel
  cases created : create 8 [utf16 "let a = 1;"] with
  | error f =>
    rw [created] at started
    cases started
  | ok fresh =>
    rw [created] at started
    obtain ⟨s, run, same⟩ := reset_observe_eq 8 _ fresh created mixedActions
    exact ⟨fresh, s, rfl, Option.some.inj started, run, same⟩

end Monkey.Session
