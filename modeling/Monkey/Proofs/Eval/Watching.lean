import Monkey.Proofs.Eval.Invariant

/-! Evaluation under watch. Whatever an evaluation computes on its way is given by some part: the
operands, the arguments of calls, what is bound and what a signal carries. An evaluation that tests
everything its parts give does the same as the plain one wherever an invariant implies the test. -/
namespace Monkey

namespace Eval

/-- Goes over to `alarm` if the value fails the test. -/
def checked (test : Value → Bool) (alarm : Eval Value) (m : Eval Value) : Eval Value := do
  let v ← m
  if test v then return v else alarm

/-- Evaluation in which everything that a part gives is tested, values and signals alike. -/
def watched (test : Value → Bool) (alarm : Eval Value) : Nat → Node → FrameId → Eval Value
  | 0, _, _ => throw .tooDeep
  | depth + 1, n, frame => checked test alarm (step (watched test alarm depth) n frame)

/-- Once there are `n` frames, `m` keeps the invariant and `m'` does the same as `m`. -/
structure Coincides (I : Invariant) (n : Nat) (m m' : Eval α) (Q : Nat → α → Prop) : Prop where
  respects : Respects I n m Q
  same (s : Store) : n ≤ s.frames.size → s.Holds I.held → m' s = m s

namespace Coincides

variable {I : Invariant}

theorem refl {m : Eval α} (run : Respects I n m Q) : Coincides I n m m Q := ⟨run, fun _ _ _ => rfl⟩

theorem later {m m' : Eval α} (runs : Coincides I n m m' Q) (le : n ≤ k) : Coincides I k m m' Q :=
  ⟨runs.respects.later le, fun s many => runs.same s (Nat.le_trans le many)⟩

theorem bind {m m' : Eval α} {q q' : α → Eval β} {P : Nat → α → Prop} {Q : Nat → β → Prop}
    (first : Coincides I n m m' P) (next : ∀ k a, n ≤ k → P k a → Coincides I k (q a) (q' a) Q) :
    Coincides I n (m >>= q) (m' >>= q') Q := by
  refine ⟨first.respects.bind fun k a le value => (next k a le value).respects, ?_⟩
  intro s many holds
  have stays := first.respects s many holds
  simp only [Bind.bind, EStateM.bind, first.same s many holds]
  cases result : m s with
  | error f s' => rfl
  | ok a middle =>
    rw [result] at stays
    obtain ⟨more, kept, value⟩ := stays
    exact (next _ a (Nat.le_trans many more) value).same middle (Nat.le_refl _) kept

theorem onValue {m m' : Eval Value} {next next' : Value → Eval Value}
    (first : Coincides I n m m' (Gives I))
    (rest : ∀ k v, n ≤ k → I.held k v → Coincides I k (next v) (next' v) (Gives I)) :
    Coincides I n (Eval.onValue m next) (Eval.onValue m' next') (Gives I) := by
  refine first.bind fun k v le value => ?_
  cases v with
  | returning v => exact refl (.pure fun _ le => I.grow value le)
  | _ => exact rest k _ le value

theorem unwrapped {m m' : Eval Value} (runs : Coincides I n m m' (Gives I)) :
    Coincides I n (return (← m).unwrap) (return (← m').unwrap) I.held :=
  runs.bind fun _ _ _ value => refl (.pure fun _ le => I.grow value le)

theorem gives {m m' : Eval Value} (runs : Coincides I n m m' I.held) :
    Coincides I n m m' (Gives I) := ⟨runs.respects.gives, runs.same⟩

section Parts

variable {eval eval' : Node → Eval Value} {ns : List Node}

theorem statements (parts : ∀ m ∈ ns, Coincides I n (eval m) (eval' m) (Gives I))
    (value : I.held n last) :
    Coincides I n (Eval.statements eval last ns) (Eval.statements eval' last ns) (Gives I) := by
  induction ns generalizing last n with
  | nil => exact refl (.held value)
  | cons m ns ih =>
    obtain ⟨first, others⟩ := List.forall_mem_cons.mp parts
    exact first.onValue fun k v le value => ih (fun m member => (others m member).later le) value

theorem block (parts : ∀ m ∈ ns, Coincides I n (eval m) (eval' m) (Gives I)) :
    Coincides I n (Eval.block eval ns) (Eval.block eval' ns) (Gives I) := statements parts I.null

theorem arguments (parts : ∀ m ∈ ns, Coincides I n (eval m) (eval' m) (Gives I))
    {next next' : List Value → Eval Value}
    (rest : ∀ k vs, n ≤ k → (∀ v ∈ vs, I.held k v) →
      Coincides I k (next vs) (next' vs) (Gives I)) :
    Coincides I n (Eval.arguments eval next ns) (Eval.arguments eval' next' ns) (Gives I) := by
  induction ns generalizing next next' n with
  | nil => exact rest n [] (Nat.le_refl n) (by simp)
  | cons m ns ih =>
    obtain ⟨first, others⟩ := List.forall_mem_cons.mp parts
    refine first.onValue fun k v le value =>
      ih (fun m member => (others m member).later le) fun j vs le' values => ?_
    exact rest j (v :: vs) (Nat.le_trans le le')
      (List.forall_mem_cons.mpr ⟨I.grow value le', values⟩)

end Parts

/-- Values that the invariant lets through pass a test that it implies. -/
theorem checked {m m' : Eval Value} {test : Value → Bool} (runs : Coincides I n m m' (Gives I))
    (passes : ∀ k v, Gives I k v → test v = true) (alarm : Eval Value) :
    Coincides I n m (Eval.checked test alarm m') (Gives I) := by
  have whole : Coincides I n (m >>= Pure.pure) (Eval.checked test alarm m') (Gives I) := by
    refine runs.bind fun k v _ value => ?_
    rw [if_pos (passes k v value)]
    exact refl (.pure fun _ le => I.grow value le)
  rwa [bind_pure] at whole

end Coincides

section Nodes

variable {I : Invariant} {eval eval' : Node → FrameId → Eval Value}
  (parts : ∀ {n e m}, I.code m → e < n → Coincides I n (eval m e) (eval' m e) (Gives I))
include parts

theorem coincides_apply (f : Closure) (callable : I.held n (.function f))
    (values : ∀ v ∈ args, I.held n v) :
    Coincides I n (apply eval f args) (apply eval' f args) I.held := by
  obtain ⟨inside, body⟩ := I.closure callable
  refine (Coincides.refl (respects_bindParams f.params inside values)).bind fun k e _ inside => ?_
  exact (Coincides.block fun m member => parts (body m member) inside).unwrapped

theorem coincides_call (callee : Value) (callable : I.held n callee)
    (values : ∀ v ∈ args, I.held n v) :
    Coincides I n (call eval callee args) (call eval' callee args) (Gives I) := by
  cases callee with
  | function f => exact (coincides_apply parts f callable values).gives
  | _ => exact .refl (.held I.null)

theorem coincides_step (m : Node) (e : FrameId) (code : I.code m) (inside : e < n) :
    Coincides I n (step eval m e) (step eval' m e) (Gives I) := by
  have plain : ∀ {n e m}, I.code m → e < n → Respects I n (eval m e) (Gives I) :=
    fun code inside => (parts code inside).respects
  have part : ∀ {k p}, n ≤ k → p ∈ m.parts → Coincides I k (eval p e) (eval' p e) (Gives I) :=
    fun le member => parts (I.parts code _ member) (Nat.lt_of_lt_of_le inside le)
  have here := Nat.le_refl n
  cases m with
  | program body => exact (Coincides.block fun p member => part here member).unwrapped.gives
  | block body => exact .block fun p member => part here member
  | letStmt name value =>
    refine (part here (by simp [Node.parts])).onValue fun k v _ held => .refl ?_
    exact (respects_define e name held).bind fun _ _ le _ => .held (I.grow held le)
  | returnStmt value =>
    refine (part here (by simp [Node.parts])).onValue fun k v _ held => .refl ?_
    exact .pure fun _ le => I.grow held le
  | exprStmt expr => exact part here (by simp [Node.parts])
  | unary operator operand =>
    exact (part here (by simp [Node.parts])).onValue fun k v _ _ =>
      .refl (.held (I.computed (applyUnary_computed operator v)))
  | binary operator left right =>
    refine (part here (by simp [Node.parts])).onValue fun k l le _ => ?_
    refine (part le (by simp [Node.parts])).onValue fun j r _ _ => .refl ?_
    exact (respects_binary operator left right l r).gives
  | ifThen condition consequence =>
    refine (part here (by simp [Node.parts])).onValue fun k v le _ => ?_
    by_cases truthy : v.isTruthy = true
    · simp only [if_pos truthy]
      exact .block fun p member => part le (by simp [Node.parts, member])
    · simp only [if_neg truthy]
      exact .refl (.held I.null)
  | ifElse condition consequence alternative =>
    refine (part here (by simp [Node.parts])).onValue fun k v le _ => ?_
    refine .block fun p member => part le ?_
    split at member <;> simp [Node.parts, member]
  | call callee args =>
    refine (part here (by simp [Node.parts])).onValue fun k f le callable => ?_
    refine .arguments (fun p member => part le (by simp [Node.parts, member])) ?_
    exact fun j vs le' values => coincides_call parts f (I.grow callable le') values
  | ident _ | int _ | bool _ | fnLit _ _ | unknown _ =>
    -- no part is evaluated
    exact .refl (respects_step plain _ e code inside)

end Nodes

section Watch

variable {I : Invariant} {test : Value → Bool} (passes : ∀ k v, Gives I k v → test v = true)
  (alarm : Eval Value)
include passes

theorem coincides_watched (depth : Nat) {m : Node} (code : I.code m) (inside : e < n) :
    Coincides I n (node depth m e) (watched test alarm depth m e) (Gives I) := by
  induction depth generalizing m e n with
  | zero => exact .refl (.fail I.tooDeep)
  | succ depth ih => exact (coincides_step ih m e code inside).checked passes alarm

theorem coincides_watchedProgram (depth : Nat) {body : List Node} (code : ∀ m ∈ body, I.code m)
    (inside : e < n) : Coincides I n (evaluateProgram depth body e)
      (program (watched test alarm depth · e) body) I.held :=
  (Coincides.block fun m member =>
    coincides_watched passes alarm depth (code m member) inside).unwrapped

end Watch
end Eval
end Monkey
