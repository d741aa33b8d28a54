import Monkey.Proofs.Eval.Sequencing
import Monkey.Proofs.Eval.Simulation
import Monkey.Proofs.Node.Respelling

/-! Evaluation of another spelling. Both runs make the same frames in the same order, and differ
in the code of their functions only. A spelling may nest more deeply than another, so a run is
followed by a run that has three times its depth: unless the first one runs out of depth, the
second one ends like it. -/
namespace Monkey

section Likeness

/-- Values of code that is spelled in two ways. Functions have the same parameters and the same
frame, and each has its own spelling of the body. -/
inductive Value.Akin : Sense → Value → Value → Prop where
  | int (v : Int) : Akin .same (.int v) (.int v)
  | bool (b : Bool) : Akin .same (.bool b) (.bool b)
  | null : Akin σ .null .null
  | function {f g : Closure} : f.params = g.params → f.env = g.env →
      List.Forall₂ (Node.Respelled .same) f.body g.body → Akin .same (.function f) (.function g)
  | opposite {v w : Int} : v + w = 0 → -9223372036854775808 < v → v < 9223372036854775808 →
      Akin .opposite (.int v) (.int w)

/-- What arrives from a part: akin values, or return signals that carry akin values. -/
inductive Value.Arrives (σ : Sense) : Value → Value → Prop where
  | plain : Akin σ v w → Arrives σ v w
  | returning : Akin .same v w → Arrives σ (.returning v) (.returning w)

/-- Frames with akin values under the same names, nested in the same frame. -/
structure Frame.Akin (f g : Frame) : Prop where
  bindings : Bindings.Alike Eq (Value.Akin .same) f.bindings g.bindings
  outer : f.outer = g.outer

/-- Stores with akin frames in the same places. -/
structure Store.Akin (s t : Store) : Prop where
  size : s.frames.size = t.frames.size
  frames (e : FrameId) : Option.Rel Frame.Akin (s.frame? e) (t.frame? e)

theorem eq_oneToOne : Naming.OneToOne Eq := by
  rintro a b c d rfl rfl
  rfl

namespace Value.Akin

theorem of_computed (computed : Computed v) : Akin .same v v := by
  cases computed with
  | int k => exact .int _
  | bool b => exact .bool b
  | null => exact .null

theorem isTruthy (akin : Akin .same v w) : v.isTruthy = w.isTruthy := by
  cases akin <;> rfl

theorem asInt? (akin : Akin .same v w) : v.asInt? = w.asInt? := by
  cases akin <;> rfl

theorem applyUnary (akin : Akin .same v w) (operator : Text) :
    applyUnary operator v = applyUnary operator w := by
  cases akin <;> rfl

/-- A minus sign before one of two opposite values gives the other. -/
theorem negate_right (akin : Akin .opposite v w) :
    Akin .same v (Monkey.applyUnary (utf16 "-") w) := by
  cases akin with
  | null => exact .null
  | @opposite v w zero low high =>
    have value : Monkey.applyUnary (utf16 "-") (.int w) = .int v := by
      have negative : -w = v := by omega
      show Value.int (wrap (-w)) = .int v
      rw [negative, wrap_eq_self (by omega) (by omega)]
    rw [value]
    exact .int v

theorem symm (akin : Akin σ v w) : Akin σ w v := by
  cases akin with
  | int v => exact .int v
  | bool b => exact .bool b
  | null => exact .null
  | function params env body => exact .function params.symm env.symm (Node.respelled_symmIn body)
  | opposite zero low high => exact .opposite (by omega) (by omega) (by omega)

theorem negate_left (akin : Akin .opposite v w) :
    Akin .same (Monkey.applyUnary (utf16 "-") v) w :=
  akin.symm.negate_right.symm

end Value.Akin

theorem Value.Arrives.unwrap (arrives : Arrives .same v w) : Akin .same v.unwrap w.unwrap := by
  cases arrives with
  | returning akin => exact akin
  | plain akin =>
    cases akin with
    | int v => exact .int v
    | bool b => exact .bool b
    | null => exact .null
    | function params env body => exact .function params env body

namespace Store.Akin

variable {s t : Store}

theorem outer? (akin : Store.Akin s t) (e : FrameId) : s.outer? e = t.outer? e := by
  unfold Store.outer?
  have frames := akin.frames e
  generalize s.frame? e = f, t.frame? e = g at frames ⊢
  cases frames with
  | none => rfl
  | some frames => exact frames.outer

theorem chainFrom (akin : Store.Akin s t) (fuel : Nat) (e : FrameId) :
    s.chainFrom fuel e = t.chainFrom fuel e :=
  chainFrom_congr fun d _ => akin.outer? d

theorem bindings (akin : Store.Akin s t) (e : FrameId) :
    Bindings.Alike Eq (Value.Akin .same) (s.bindings e) (t.bindings e) := by
  unfold Store.bindings
  have frames := akin.frames e
  generalize s.frame? e = f, t.frame? e = g at frames ⊢
  cases frames with
  | none => exact .nil
  | some frames => exact frames.bindings

theorem lookup (akin : Store.Akin s t) (e : FrameId) (name : Text) :
    Option.Rel (Value.Akin .same) (s.lookup e name) (t.lookup e name) := by
  unfold Store.lookup chain
  rw [akin.chainFrom]
  induction t.chainFrom (e + 1) e with
  | nil => exact .none
  | cons f chain ih =>
    have here := (akin.bindings f).get? eq_oneToOne (rfl : name = name)
    rw [List.findSome?_cons, List.findSome?_cons]
    generalize (s.bindings f).get? name = v, (t.bindings f).get? name = w at here ⊢
    cases here with
    | none => exact ih
    | some value => exact .some value

theorem define (akin : Store.Akin s t) (e : FrameId) (name : Text) (value : Value.Akin .same v w) :
    Store.Akin (s.define e name v) (t.define e name w) := by
  constructor
  · rw [size_define, size_define, akin.size]
  · intro d
    rw [frame?_define, frame?_define]
    split
    · have frames := akin.frames d
      generalize s.frame? d = f, t.frame? d = g at frames ⊢
      cases frames with
      | none => exact .none
      | some frames => exact .some ⟨frames.bindings.insert eq_oneToOne rfl value, frames.outer⟩
    · exact akin.frames d

theorem push (akin : Store.Akin s t) (frames : Frame.Akin f g) :
    Store.Akin (s.push f).2 (t.push g).2 := by
  constructor
  · rw [size_push, size_push, akin.size]
  · intro d
    rw [frame?_push, frame?_push, akin.size]
    split
    · exact .some frames
    · exact akin.frames d

end Store.Akin
end Likeness

def Failure.isTooDeep : Failure → Bool
  | tooDeep => true
  | _ => false

namespace Eval

/-- Whether the run ran out of depth. -/
def ranOut : EStateM.Result Failure Store α → Bool
  | .error f _ => f.isTooDeep
  | .ok _ _ => false

/-- Both runs give results that `Q` relates, or both fail alike; the stores are akin. -/
inductive EndAkin (Q : α → β → Prop) :
    EStateM.Result Failure Store α → EStateM.Result Failure Store β → Prop where
  | ok : Q a b → Store.Akin s t → EndAkin Q (.ok a s) (.ok b t)
  | error : Failure.Alike f g → Store.Akin s t → EndAkin Q (.error f s) (.error g t)

/-- From akin stores the first run runs out of depth, or the second run ends like it. -/
def Follows (m : Eval α) (m' : Eval β) (Q : α → β → Prop) : Prop :=
  ∀ s t, Store.Akin s t → ranOut (m s) = true ∨ EndAkin Q (m s) (m' t)

namespace Follows

theorem pure {Q : α → β → Prop} (related : Q a b) : Follows (pure a) (pure b) Q :=
  fun _ _ akin => .inr (.ok related akin)

theorem fail {Q : α → β → Prop} (failures : Failure.Alike f g) : Follows (throw f) (throw g) Q :=
  fun _ _ akin => .inr (.error failures akin)

theorem tooDeep {Q : α → β → Prop} (m : Eval β) : Follows (throw .tooDeep) m Q :=
  fun _ _ _ => .inl rfl

theorem bind {m : Eval α} {m' : Eval α'} {q : α → Eval β} {q' : α' → Eval β'}
    {Q : α → α' → Prop} {R : β → β' → Prop} (first : Follows m m' Q)
    (next : ∀ a b, Q a b → Follows (q a) (q' b) R) : Follows (m >>= q) (m' >>= q') R := by
  intro s t akin
  have ends := first s t akin
  simp only [Bind.bind, EStateM.bind]
  generalize m s = r, m' t = r' at ends ⊢
  rcases ends with out | ends
  · cases r with
    | ok a s' => cases out
    | error f s' => exact .inl out
  · cases ends with
    | ok related akin => exact next _ _ related _ _ akin
    | error failures akin => exact .inr (.error failures akin)

theorem weaken {Q R : α → β → Prop} (runs : Follows m m' Q) (imp : ∀ a b, Q a b → R a b) :
    Follows m m' R := by
  intro s t akin
  have ends := runs s t akin
  generalize m s = r, m' t = r' at ends ⊢
  rcases ends with out | ends
  · exact .inl out
  · cases ends with
    | ok related akin => exact .inr (.ok (imp _ _ related) akin)
    | error failures akin => exact .inr (.error failures akin)

theorem onValue {next next' : Value → Eval Value} (first : Follows m m' (Value.Arrives σ))
    (rest : ∀ v w, Value.Akin σ v w → Follows (next v) (next' w) (Value.Arrives τ)) :
    Follows (Eval.onValue m next) (Eval.onValue m' next') (Value.Arrives τ) := by
  refine first.bind fun v w arrives => ?_
  cases arrives with
  | returning akin => exact pure (.returning akin)
  | plain akin =>
    cases akin with
    | int v => exact rest _ _ (.int v)
    | bool b => exact rest _ _ (.bool b)
    | null => exact rest _ _ .null
    | function params env body => exact rest _ _ (.function params env body)
    | opposite zero low high => exact rest _ _ (.opposite zero low high)

theorem statements {eval eval' : Node → Eval Value}
    (parts : List.Forall₂ (fun n n' => Follows (eval n) (eval' n') (Value.Arrives .same)) ns ns')
    (value : Value.Akin .same last last') :
    Follows (Eval.statements eval last ns) (Eval.statements eval' last' ns')
      (Value.Arrives .same) := by
  induction parts generalizing last last' with
  | nil => exact pure (.plain value)
  | cons first _ ih => exact first.onValue fun v w value => ih value

theorem block {eval eval' : Node → Eval Value}
    (parts : List.Forall₂ (fun n n' => Follows (eval n) (eval' n') (Value.Arrives .same)) ns ns') :
    Follows (Eval.block eval ns) (Eval.block eval' ns') (Value.Arrives .same) :=
  statements parts .null

theorem unwrapped (runs : Follows m m' (Value.Arrives .same)) :
    Follows (return (← m).unwrap) (return (← m').unwrap) (Value.Akin .same) :=
  runs.bind fun _ _ arrives => pure arrives.unwrap

theorem arguments {eval eval' : Node → Eval Value}
    (parts : List.Forall₂ (fun n n' => Follows (eval n) (eval' n') (Value.Arrives .same)) ns ns')
    {next next' : List Value → Eval Value}
    (rest : ∀ vs ws, List.Forall₂ (Value.Akin .same) vs ws →
      Follows (next vs) (next' ws) (Value.Arrives σ)) :
    Follows (Eval.arguments eval next ns) (Eval.arguments eval' next' ns') (Value.Arrives σ) := by
  induction parts generalizing next next' with
  | nil => exact rest [] [] .nil
  | cons first _ ih =>
    refine first.onValue fun v w value => ih fun vs ws values => ?_
    exact rest (v :: vs) (w :: ws) (.cons value values)

theorem negate_right (runs : Follows m m' (Value.Arrives .opposite)) :
    Follows m (Eval.onValue m' fun v => return applyUnary (utf16 "-") v) (Value.Arrives .same) := by
  have negated : Follows (Eval.onValue m (Pure.pure ·))
      (Eval.onValue m' fun v => return applyUnary (utf16 "-") v) (Value.Arrives .same) :=
    runs.onValue fun v w akin => pure (.plain akin.negate_right)
  rwa [onValue_pure] at negated

theorem negate_left (runs : Follows m m' (Value.Arrives .opposite)) :
    Follows (Eval.onValue m fun v => return applyUnary (utf16 "-") v) m' (Value.Arrives .same) := by
  have negated : Follows (Eval.onValue m fun v => return applyUnary (utf16 "-") v)
      (Eval.onValue m' (Pure.pure ·)) (Value.Arrives .same) :=
    runs.onValue fun v w akin => pure (.plain akin.negate_left)
  rwa [onValue_pure] at negated

end Follows

theorem follows_define (e : FrameId) (name : Text) (value : Value.Akin .same v w) :
    Follows (define e name v) (define e name w) fun _ _ => True :=
  fun _ _ akin => .inr (.ok trivial (akin.define e name value))

theorem follows_readName (e : FrameId) (name : Text) :
    Follows (readName e name) (readName e name) (Value.Arrives .same) :=
  fun _ _ akin => .inr (.ok (.plain (rel_getD (akin.lookup e name) .null)) akin)

theorem follows_newFunction (params : List Text) (e : FrameId)
    (body : List.Forall₂ (Node.Respelled .same) ns ns') :
    Follows (newFunction params ns e) (newFunction params ns' e) (Value.Arrives .same) :=
  fun _ _ akin => .inr (.ok (.plain (.function rfl rfl body)) ⟨akin.size, akin.frames⟩)

theorem follows_bindParams (params : List Text) (outer : FrameId)
    (args : List.Forall₂ (Value.Akin .same) vs ws) :
    Follows (bindParams params vs outer) (bindParams params ws outer) Eq := by
  intro s t akin
  rw [bindParams_run, bindParams_run, ← args.length_eq]
  by_cases count : vs.length = params.length
  · rw [if_pos count, if_pos count]
    have names : List.Forall₂ Eq params params := List.forall₂_same.mpr fun _ _ => rfl
    exact .inr (.ok akin.size (akin.push ⟨.ofArguments eq_oneToOne names args, rfl⟩))
  · rw [if_neg count, if_neg count]
    exact .inr (.error (.argumentCount rfl args.length_eq) akin)

theorem follows_binary (operator : Text) (left right left' right' : Node)
    (first : Value.Akin .same l l') (second : Value.Akin .same r r') :
    Follows (binary operator left right l r) (binary operator left' right' l' r')
      (Value.Arrives .same) := by
  have same : applyBinary operator l r = applyBinary operator l' r' := by
    rw [applyBinary, applyBinary, first.asInt?, second.asInt?]
  unfold binary
  rw [← same]
  cases result : applyBinary operator l r with
  | none => exact .fail .divisionByZero
  | some v => exact .pure (.plain (.of_computed (applyBinary_computed result)))

section Nodes

variable {eval eval' : Node → FrameId → Eval Value}
  (parts : ∀ {σ n n'}, Node.Respelled σ n n' →
    ∀ e, Follows (eval n e) (eval' n' e) (Value.Arrives σ))
include parts

theorem follows_body (e : FrameId) (body : List.Forall₂ (Node.Respelled .same) ns ns') :
    List.Forall₂ (fun n n' => Follows (eval n e) (eval' n' e) (Value.Arrives .same)) ns ns' :=
  body.imp fun _ _ respelled => parts respelled e

theorem follows_apply {f g : Closure} (params : f.params = g.params) (env : f.env = g.env)
    (body : List.Forall₂ (Node.Respelled .same) f.body g.body)
    (args : List.Forall₂ (Value.Akin .same) vs ws) :
    Follows (apply eval f vs) (apply eval' g ws) (Value.Akin .same) := by
  unfold apply
  rw [← params, ← env]
  refine (follows_bindParams f.params f.env args).bind fun e _ same => ?_
  subst same
  exact (Follows.block (follows_body parts e body)).unwrapped

theorem follows_call (callee : Value.Akin σ f g)
    (args : List.Forall₂ (Value.Akin .same) vs ws) :
    Follows (call eval f vs) (call eval' g ws) (Value.Arrives σ) := by
  cases callee with
  | function params env body =>
    exact (follows_apply parts params env body args).weaken fun _ _ => .plain
  | _ => exact .pure (.plain .null)

section Forms

variable (e : FrameId)

theorem follows_letStmt (name : Text) (value : Node.Respelled .same n n') :
    Follows (step eval (.letStmt name n) e) (step eval' (.letStmt name n') e)
      (Value.Arrives .same) := by
  refine (parts value e).onValue fun v w akin => ?_
  exact (follows_define e name akin).bind fun _ _ _ => .pure (.plain akin)

theorem follows_unary (operator : Text) (operand : Node.Respelled .same n n') :
    Follows (step eval (.unary operator n) e) (step eval' (.unary operator n') e)
      (Value.Arrives .same) := by
  refine (parts operand e).onValue fun v w akin => ?_
  rw [← akin.applyUnary operator]
  exact .pure (.plain (.of_computed (applyUnary_computed operator v)))

theorem follows_ifThen (condition : Node.Respelled .same c c')
    (yes : List.Forall₂ (Node.Respelled .same) ns ns') :
    Follows (step eval (.ifThen c ns) e) (step eval' (.ifThen c' ns') e) (Value.Arrives .same) := by
  refine (parts condition e).onValue fun v w akin => ?_
  rw [← akin.isTruthy]
  by_cases truthy : v.isTruthy = true
  · simp only [if_pos truthy]
    exact .block (follows_body parts e yes)
  · simp only [if_neg truthy]
    exact .pure (.plain .null)

theorem follows_ifElse (condition : Node.Respelled .same c c')
    (yes : List.Forall₂ (Node.Respelled .same) ns ns')
    (no : List.Forall₂ (Node.Respelled .same) ms ms') :
    Follows (step eval (.ifElse c ns ms) e) (step eval' (.ifElse c' ns' ms') e)
      (Value.Arrives .same) := by
  refine (parts condition e).onValue fun v w akin => ?_
  rw [← akin.isTruthy]
  by_cases truthy : v.isTruthy = true
  · simp only [if_pos truthy]
    exact .block (follows_body parts e yes)
  · simp only [if_neg truthy]
    exact .block (follows_body parts e no)

theorem follows_callNode (callee : Node.Respelled σ f f')
    (args : List.Forall₂ (Node.Respelled .same) ns ns') :
    Follows (step eval (.call f ns) e) (step eval' (.call f' ns') e) (Value.Arrives σ) := by
  refine (parts callee e).onValue fun v w akin => ?_
  exact .arguments (follows_body parts e args) fun vs ws values => follows_call parts akin values

theorem follows_opposite (opposite : Node.Respelled .opposite n n') :
    Follows (step eval n e) (step eval' n' e) (Value.Arrives .opposite) := by
  cases opposite with
  | call callee args => exact follows_callNode parts e callee args
  | opposite zero low high => exact .pure (.plain (.opposite zero low high))

end Forms
end Nodes

/-- A conditional that always runs is a block, two levels further down. -/
theorem node_ifTrue (depth : Nat) (body : List Node) (e : FrameId) :
    node (depth + 3) (.exprStmt (.ifThen (.bool true) body)) e =
      block (node (depth + 1) · e) body := rfl

/-- Two levels of depth are not enough for the condition. -/
theorem ranOut_ifTrue (depth : Nat) (shallow : depth ≤ 2) (body : List Node) (e : FrameId)
    (s : Store) : ranOut (node depth (.exprStmt (.ifThen (.bool true) body)) e s) = true := by
  match depth with
  | 0 => rfl
  | 1 => rfl
  | 2 => rfl

/-- How many levels less the opposite of an expression takes, as it has no minus sign. -/
def slack : Sense → Nat
  | .same => 0
  | .opposite => 1

theorem follows_node (d k : Nat) (enough : 3 * d ≤ k + slack σ)
    (respelled : Node.Respelled σ n n') (e : FrameId) :
    Follows (node d n e) (node k n' e) (Value.Arrives σ) := by
  -- A conditional in place of a block spends two levels at once, so one level less is not enough.
  induction d using Nat.strongRecOn generalizing k σ n n' e with
  | ind d ih =>
    cases d with
    | zero => exact .tooDeep _
    | succ d =>
      have tight : slack σ ≤ 1 := by cases σ <;> decide
      obtain ⟨k, rfl⟩ : ∃ j, k = j + 1 := ⟨k - 1, by omega⟩
      have parts : ∀ {σ n n'}, Node.Respelled σ n n' →
          ∀ e, Follows (node d n e) (node k n' e) (Value.Arrives σ) :=
        fun respelled e => ih d (Nat.lt_succ_self d) k (by omega) respelled e
      cases respelled with
      | letStmt name value => exact follows_letStmt parts e name value
      | returnStmt value =>
        exact (parts value e).onValue fun v w akin => .pure (.returning akin)
      | exprStmt expr => exact parts expr e
      | ident name => exact follows_readName e name
      | int v => exact .pure (.plain (.int v))
      | bool b => exact .pure (.plain (.bool b))
      | unary operator operand => exact follows_unary parts e operator operand
      | binary operator left right =>
        refine (parts left e).onValue fun l l' first => ?_
        refine (parts right e).onValue fun r r' second => ?_
        exact follows_binary operator _ _ _ _ first second
      | ifThen condition yes => exact follows_ifThen parts e condition yes
      | ifElse condition yes no => exact follows_ifElse parts e condition yes no
      | fnLit params body => exact follows_newFunction params e body
      | call callee args => exact follows_callNode parts e callee args
      | opposite zero low high => exact .pure (.plain (.opposite zero low high))
      | @blockAsIf body body' bodies =>
        obtain ⟨j, rfl⟩ : ∃ j, k = j + 2 := ⟨k - 2, by simp only [slack] at enough; omega⟩
        rw [node_ifTrue]
        refine .block (bodies.imp fun n n' respelled => ?_)
        exact ih d (Nat.lt_succ_self d) (j + 1) (by simp only [slack] at enough ⊢; omega)
          respelled e
      | @ifAsBlock body body' bodies =>
        by_cases shallow : d + 1 ≤ 2
        · exact fun s t _ => .inl (ranOut_ifTrue _ shallow body e s)
        · obtain ⟨j, rfl⟩ : ∃ j, d = j + 2 := ⟨d - 2, by omega⟩
          rw [node_ifTrue]
          refine .block (bodies.imp fun n n' respelled => ?_)
          exact ih (j + 1) (by omega) k (by simp only [slack] at enough ⊢; omega) respelled e
      | signed opposite =>
        obtain ⟨j, rfl⟩ : ∃ j, k = j + 1 := ⟨k - 1, by simp only [slack] at enough; omega⟩
        apply Follows.negate_right
        -- The second run has spent one level on the sign; the forms behind it are the same.
        refine follows_opposite (fun respelled e => ?_) e opposite
        exact ih d (Nat.lt_succ_self d) j (by simp only [slack] at enough; omega) respelled e
      | unsigned opposite =>
        apply Follows.negate_left
        exact ih d (Nat.lt_succ_self d) (k + 1) (by simp only [slack] at enough ⊢; omega) opposite e

theorem follows_program (enough : 3 * d ≤ k) (bodies : List.Forall₂ (Node.Respelled .same) ns ns')
    (e : FrameId) :
    Follows (evaluateProgram d ns e) (evaluateProgram k ns' e) (Value.Akin .same) := by
  apply Follows.unwrapped
  exact .block (bodies.imp fun n n' respelled => follows_node (σ := .same) d k enough respelled e)

end Eval
end Monkey
