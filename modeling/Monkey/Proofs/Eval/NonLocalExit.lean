import Monkey.Eval.Basic

/-! Return signals against a non-local exit. `Direct` evaluates by the same rules, but a
`return` raises its value, and nothing looks at a result before it goes on; the value is
caught around a program, around the body of a function and around the whole. Handing signals
up by hand does the same, as long as no binding holds a signal to begin with. -/
namespace Monkey

/-- Why a direct evaluation breaks off. -/
inductive Exit where
  | returned (value : Value)
  | failed (failure : Failure)

abbrev Direct := EStateM Exit Store

namespace Direct

/-- What evaluates no part is the same on both sides. -/
def ofEval (m : Eval α) : Direct α := fun s =>
  match m s with
  | .ok a s' => .ok a s'
  | .error f s' => .error (.failed f) s'

/-- Goes on with the value that is raised inside. -/
def caught (d : Direct Value) : Direct Value := fun s =>
  match d s with
  | .error (.returned v) s' => .ok v s'
  | result => result

def statements (eval : Node → Direct Value) (last : Value) : List Node → Direct Value
  | [] => return last
  | n :: ns => do
    let v ← eval n
    statements eval v ns

def block (eval : Node → Direct Value) (body : List Node) : Direct Value :=
  statements eval .null body

def program (eval : Node → Direct Value) (body : List Node) : Direct Value :=
  caught (statements eval .null body)

def arguments (eval : Node → Direct Value) : List Node → Direct (List Value)
  | [] => return []
  | n :: ns => do
    let v ← eval n
    let vs ← arguments eval ns
    return v :: vs

def apply (eval : Node → FrameId → Direct Value) (f : Closure) (args : List Value) :
    Direct Value := do
  let frame ← ofEval (Eval.bindParams f.params args f.env)
  caught (block (eval · frame) f.body)

def call (eval : Node → FrameId → Direct Value) (callee : Value) (args : List Value) :
    Direct Value :=
  match callee with
  | .function f => apply eval f args
  | _ => return .null

def step (eval : Node → FrameId → Direct Value) (node : Node) (frame : FrameId) : Direct Value :=
  match node with
  | .program body => program (eval · frame) body
  | .block body => block (eval · frame) body
  | .exprStmt expr => eval expr frame
  | .letStmt name value => do
    let v ← eval value frame
    ofEval (Eval.define frame name v)
    return v
  | .returnStmt value => do
    let v ← eval value frame
    throw (.returned v)
  | .ident name => ofEval (Eval.readName frame name)
  | .int value => return .int value
  | .bool value => return .bool value
  | .unary operator operand => do
    let v ← eval operand frame
    return applyUnary operator v
  | .binary operator left right => do
    let l ← eval left frame
    let r ← eval right frame
    ofEval (Eval.binary operator left right l r)
  | .ifThen condition consequence => do
    let v ← eval condition frame
    if v.isTruthy then block (eval · frame) consequence else return .null
  | .ifElse condition consequence alternative => do
    let v ← eval condition frame
    block (eval · frame) (if v.isTruthy then consequence else alternative)
  | .fnLit params body => ofEval (Eval.newFunction params body frame)
  | .call callee args => do
    let f ← eval callee frame
    let vs ← arguments (eval · frame) args
    call eval f vs
  | .unknown kind => throw (.failed (.unexpectedNode kind))

def node : Nat → Node → FrameId → Direct Value
  | 0, _, _ => throw (.failed .tooDeep)
  | depth + 1, n, frame => step (node depth) n frame

/-- The value of a node, with nothing left to raise. -/
def evaluate (depth : Nat) (n : Node) (frame : FrameId) : Direct Value :=
  caught (node depth n frame)

/-- What the direct evaluation comes to where a raised value is handed up as a signal. -/
def signal (d : Direct Value) : Eval Value := fun s =>
  match d s with
  | .ok v s' => .ok v s'
  | .error (.returned v) s' => .ok (.returning v) s'
  | .error (.failed f) s' => .error f s'

end Direct

section Settled

/-- The value is no signal. -/
def Value.Settled (v : Value) : Prop := v.isReturning = false

/-- No binding holds a signal. -/
def Store.Settled (s : Store) : Prop := ∀ f ∈ s.frames, ∀ b ∈ f.bindings, b.2.Settled

theorem Value.settled_unwrap {v : Value} (settled : v.Settled) : v.unwrap = v := by
  cases v with
  | returning v => cases settled
  | _ => rfl

theorem Bindings.settled_insert (name : Text) {v : Value} {bs : Bindings} (settled : v.Settled)
    (rest : ∀ b ∈ bs, b.2.Settled) : ∀ b ∈ bs.insert name v, b.2.Settled := by
  induction bs with
  | nil => simpa [insert] using settled
  | cons b bs ih =>
    obtain ⟨first, others⟩ := List.forall_mem_cons.mp rest
    unfold insert
    split
    · exact List.forall_mem_cons.mpr ⟨settled, others⟩
    · exact List.forall_mem_cons.mpr ⟨first, ih others⟩

theorem Bindings.settled_foldl (pairs : List (Text × Value)) {bs : Bindings}
    (settled : ∀ p ∈ pairs, p.2.Settled) (rest : ∀ b ∈ bs, b.2.Settled) :
    ∀ b ∈ pairs.foldl (fun bs b => bs.insert b.1 b.2) bs, b.2.Settled := by
  induction pairs generalizing bs with
  | nil => exact rest
  | cons p pairs ih =>
    obtain ⟨first, others⟩ := List.forall_mem_cons.mp settled
    exact ih others (settled_insert p.1 first rest)

theorem Bindings.settled_ofArguments (params : List Text) {args : List Value}
    (settled : ∀ v ∈ args, v.Settled) : ∀ b ∈ ofArguments params args, b.2.Settled :=
  settled_foldl _ (fun p member => settled p.2 (List.of_mem_zip member).2) (by simp)

theorem Bindings.settled_get? {bs : Bindings} (settled : ∀ b ∈ bs, b.2.Settled)
    (found : bs.get? name = some v) : v.Settled := by
  induction bs with
  | nil => cases found
  | cons b bs ih =>
    obtain ⟨first, others⟩ := List.forall_mem_cons.mp settled
    unfold get? at found
    split at found
    · exact Option.some.inj found ▸ first
    · exact ih others found

namespace Store

variable {s : Store}

theorem settled_bindings (settled : s.Settled) (id : FrameId) :
    ∀ b ∈ s.bindings id, b.2.Settled := by
  unfold bindings frame?
  cases found : s.frames[id]? with
  | none => simp
  | some f => exact settled f (Array.mem_of_getElem? found)

theorem settled_lookup (settled : s.Settled) (id : FrameId) (name : Text) :
    ((s.lookup id name).getD .null).Settled := by
  cases found : s.lookup id name with
  | none => rfl
  | some v =>
    obtain ⟨_, f, _, _, bound, _⟩ := List.findSome?_eq_some_iff.mp found
    exact Bindings.settled_get? (settled_bindings settled f) bound

theorem settled_push (settled : s.Settled) (f : Frame) (fresh : ∀ b ∈ f.bindings, b.2.Settled) :
    (s.push f).2.Settled := by
  intro g member
  rcases Array.mem_push.mp member with member | rfl
  · exact settled g member
  · exact fresh

theorem settled_define (settled : s.Settled) (id : FrameId) (name : Text) {v : Value}
    (plain : v.Settled) : (s.define id name v).Settled := by
  intro g member
  obtain ⟨i, found⟩ := Array.getElem?_of_mem member
  rw [define, Array.getElem?_modify] at found
  split at found
  · obtain ⟨f, before, rfl⟩ := Option.map_eq_some_iff.mp found
    exact Bindings.settled_insert name plain (settled f (Array.mem_of_getElem? before))
  · exact settled g (Array.mem_of_getElem? found)

end Store
end Settled

theorem applyUnary_settled (operator : Text) (v : Value) : (applyUnary operator v).Settled := by
  unfold applyUnary
  split
  · cases v <;> rfl
  split
  · cases v <;> rfl
  · rfl

theorem applyInts_settled (result : applyInts operator l r = some v) : v.Settled := by
  unfold applyInts at result
  repeat' split at result
  all_goals cases result <;> rfl

theorem applyBinary_settled (result : applyBinary operator l r = some v) : v.Settled := by
  unfold applyBinary at result
  split at result
  · exact applyInts_settled result
  · cases result
    rfl

section Primitives

/-- No binding is left with a signal, and the result, if there is one, has `P`. -/
def Eval.Kept (P : α → Prop) : EStateM.Result Failure Store α → Prop
  | .ok a s => P a ∧ s.Settled
  | .error _ s => s.Settled

def Eval.Keeps (m : Eval α) (P : α → Prop) : Prop := ∀ s, s.Settled → Kept P (m s)

namespace Eval

theorem keeps_define (frame : FrameId) (name : Text) (plain : v.Settled) :
    Keeps (define frame name v) fun _ => True :=
  fun _ settled => ⟨trivial, Store.settled_define settled frame name plain⟩

theorem keeps_readName (frame : FrameId) (name : Text) :
    Keeps (readName frame name) Value.Settled :=
  fun _ settled => ⟨Store.settled_lookup settled frame name, settled⟩

theorem keeps_newFunction (params : List Text) (body : List Node) (frame : FrameId) :
    Keeps (newFunction params body frame) Value.Settled :=
  fun _ settled => ⟨rfl, settled⟩

theorem keeps_bindParams (params : List Text) (outer : FrameId)
    (plain : ∀ v ∈ args, v.Settled) : Keeps (bindParams params args outer) fun _ => True := by
  intro s settled
  unfold bindParams extend
  by_cases count : args.length = params.length
  · rw [if_pos count, if_pos count.symm]
    exact ⟨trivial, Store.settled_push settled _ (Bindings.settled_ofArguments params plain)⟩
  · rw [if_neg count]
    exact settled

theorem Keeps.bind {m : Eval α} {q : α → Eval β} {P : α → Prop} {Q : β → Prop} (first : Keeps m P)
    (next : ∀ a, P a → Keeps (q a) Q) : Keeps (m >>= q) Q := by
  intro s settled
  have kept := first s settled
  simp only [Bind.bind, EStateM.bind]
  cases result : m s with
  | ok a s' =>
    rw [result] at kept
    exact next a kept.1 s' kept.2
  | error f s' =>
    rw [result] at kept
    exact kept

theorem keeps_binary (operator : Text) (left right : Node) (l r : Value) :
    Keeps (binary operator left right l r) Value.Settled := by
  intro s settled
  unfold binary
  cases result : applyBinary operator l r with
  | none => exact settled
  | some v => exact ⟨applyBinary_settled result, settled⟩

end Eval
end Primitives

namespace Direct

/-- What a direct evaluation leaves: no signal as its value or raised, and none bound. -/
def Clean : EStateM.Result Exit Store Value → Prop
  | .ok v s => v.Settled ∧ s.Settled
  | .error (.returned v) s => v.Settled ∧ s.Settled
  | .error (.failed _) s => s.Settled

/-- The two evaluations agree from every store whose bindings hold no signal. -/
def Agrees (m : Eval Value) (d : Direct Value) : Prop :=
  ∀ s, s.Settled → m s = d.signal s ∧ Clean (d s)

namespace Agrees

/-- The three ways in which two evaluations that agree can end. -/
theorem ends (agrees : Agrees m d) {s : Store} (settled : s.Settled) :
    (∃ v s', d s = .ok v s' ∧ m s = .ok v s' ∧ v.Settled ∧ s'.Settled) ∨
    (∃ v s', d s = .error (.returned v) s' ∧ m s = .ok (.returning v) s' ∧
      v.Settled ∧ s'.Settled) ∨
    ∃ f s', d s = .error (.failed f) s' ∧ m s = .error f s' ∧ s'.Settled := by
  obtain ⟨same, clean⟩ := agrees s settled
  unfold signal at same
  cases result : d s with
  | ok v s' =>
    simp only [result] at same clean
    exact .inl ⟨v, s', rfl, same, clean⟩
  | error e s' =>
    simp only [result] at same clean
    cases e with
    | returned v => exact .inr (.inl ⟨v, s', rfl, same, clean⟩)
    | failed f => exact .inr (.inr ⟨f, s', rfl, same, clean⟩)

theorem pure (plain : v.Settled) : Agrees (pure v) (pure v) :=
  fun _ settled => ⟨rfl, plain, settled⟩

theorem raise (plain : v.Settled) : Agrees (return .returning v) (throw (.returned v)) :=
  fun _ settled => ⟨rfl, plain, settled⟩

theorem fail (f : Failure) : Agrees (throw f) (throw (.failed f)) :=
  fun _ settled => ⟨rfl, settled⟩

/-- Passing a signal up before going on is what sequencing does with a raised value. -/
theorem onValue {next : Value → Eval Value} {next' : Value → Direct Value}
    (first : Agrees m d) (rest : ∀ v, v.Settled → Agrees (next v) (next' v)) :
    Agrees (Eval.onValue m next) (d >>= next') := by
  intro s settled
  simp only [signal, Eval.onValue, bind, EStateM.bind]
  obtain ⟨v, s', direct, run, plain, kept⟩ | ⟨v, s', direct, run, clean⟩ |
    ⟨f, s', direct, run, kept⟩ := first.ends settled
  · rw [direct, run]
    cases v with
    | returning v => cases plain
    | _ => exact rest _ plain s' kept
  · rw [direct, run]
    exact ⟨rfl, clean⟩
  · rw [direct, run]
    exact ⟨rfl, kept⟩

theorem ofEval_bind {q : α → Eval Value} {q' : α → Direct Value} (keeps : Eval.Keeps m P)
    (next : ∀ a, P a → Agrees (q a) (q' a)) : Agrees (m >>= q) (ofEval m >>= q') := by
  intro s settled
  have kept := keeps s settled
  simp only [signal, ofEval, bind, EStateM.bind]
  cases result : m s with
  | ok a s' =>
    simp only [result] at kept ⊢
    exact next a kept.1 s' kept.2
  | error f s' =>
    simp only [result] at kept ⊢
    exact ⟨trivial, kept⟩

theorem ofEval {m : Eval Value} (keeps : Eval.Keeps m Value.Settled) :
    Agrees m (ofEval m) := by
  have whole := ofEval_bind keeps fun _ => pure
  rwa [bind_pure, bind_pure] at whole

/-- Opening a signal is catching what was raised. -/
theorem caught (agrees : Agrees m d) : Agrees (return (← m).unwrap) (caught d) := by
  intro s settled
  simp only [signal, Direct.caught, bind, EStateM.bind]
  obtain ⟨v, s', direct, run, plain, kept⟩ | ⟨v, s', direct, run, clean⟩ |
    ⟨f, s', direct, run, kept⟩ := agrees.ends settled
  · rw [direct, run]
    exact ⟨congrArg (EStateM.Result.ok · s') (Value.settled_unwrap plain), plain, kept⟩
  · rw [direct, run]
    exact ⟨rfl, clean⟩
  · rw [direct, run]
    exact ⟨rfl, kept⟩

theorem statements {eval : Node → Eval Value} {eval' : Node → Direct Value}
    (parts : ∀ n, Agrees (eval n) (eval' n)) (last : Value) (plain : last.Settled)
    (ns : List Node) : Agrees (Eval.statements eval last ns) (statements eval' last ns) := by
  induction ns generalizing last with
  | nil => exact pure plain
  | cons n ns ih => exact (parts n).onValue fun v plain => ih v plain

theorem block {eval : Node → Eval Value} {eval' : Node → Direct Value}
    (parts : ∀ n, Agrees (eval n) (eval' n)) (body : List Node) :
    Agrees (Eval.block eval body) (block eval' body) := statements parts .null rfl body

theorem program {eval : Node → Eval Value} {eval' : Node → Direct Value}
    (parts : ∀ n, Agrees (eval n) (eval' n)) (body : List Node) :
    Agrees (Eval.program eval body) (program eval' body) := (block parts body).caught

theorem arguments {eval : Node → Eval Value} {eval' : Node → Direct Value}
    (parts : ∀ n, Agrees (eval n) (eval' n)) {next : List Value → Eval Value}
    {next' : List Value → Direct Value}
    (rest : ∀ vs, (∀ v ∈ vs, v.Settled) → Agrees (next vs) (next' vs)) (ns : List Node) :
    Agrees (Eval.arguments eval next ns) (arguments eval' ns >>= next') := by
  induction ns generalizing next next' with
  | nil =>
    rw [Direct.arguments, pure_bind]
    exact rest [] (by simp)
  | cons n ns ih =>
    simp only [Direct.arguments, bind_assoc, pure_bind]
    refine (parts n).onValue fun v plain => ih fun vs settled => ?_
    exact rest (v :: vs) (List.forall_mem_cons.mpr ⟨plain, settled⟩)

section Nodes

variable {eval : Node → FrameId → Eval Value} {eval' : Node → FrameId → Direct Value}
  (parts : ∀ n frame, Agrees (eval n frame) (eval' n frame))
include parts

theorem apply (f : Closure) (plain : ∀ v ∈ args, v.Settled) :
    Agrees (Eval.apply eval f args) (apply eval' f args) :=
  ofEval_bind (Eval.keeps_bindParams f.params f.env plain) fun frame _ =>
    (block (parts · frame) f.body).caught

theorem call (callee : Value) (plain : ∀ v ∈ args, v.Settled) :
    Agrees (Eval.call eval callee args) (call eval' callee args) := by
  cases callee with
  | function f => exact apply parts f plain
  | _ => exact pure rfl

theorem step (n : Node) (frame : FrameId) :
    Agrees (Eval.step eval n frame) (step eval' n frame) := by
  cases n with
  | program body => exact program (parts · frame) body
  | block body => exact block (parts · frame) body
  | letStmt name value =>
    refine (parts value frame).onValue fun v plain => ?_
    exact ofEval_bind (Eval.keeps_define frame name plain) fun _ _ => pure plain
  | returnStmt value => exact (parts value frame).onValue fun _ plain => raise plain
  | exprStmt expr => exact parts expr frame
  | ident name => exact ofEval (Eval.keeps_readName frame name)
  | int value => exact pure rfl
  | bool value => exact pure rfl
  | unary operator operand =>
    exact (parts operand frame).onValue fun v _ => pure (applyUnary_settled operator v)
  | binary operator left right =>
    refine (parts left frame).onValue fun l _ => (parts right frame).onValue fun r _ => ?_
    exact ofEval (Eval.keeps_binary operator left right l r)
  | ifThen condition consequence =>
    refine (parts condition frame).onValue fun v _ => ?_
    by_cases truthy : v.isTruthy = true
    · simp only [if_pos truthy]
      exact block (parts · frame) consequence
    · simp only [if_neg truthy]
      exact pure rfl
  | ifElse condition consequence alternative =>
    exact (parts condition frame).onValue fun v _ => block (parts · frame) _
  | fnLit params body => exact ofEval (Eval.keeps_newFunction params body frame)
  | call callee args =>
    refine (parts callee frame).onValue fun f _ => ?_
    exact arguments (parts · frame) (fun _ plain => call parts f plain) args
  | unknown kind => exact fail _

end Nodes

theorem node (depth : Nat) (n : Node) (frame : FrameId) :
    Agrees (Eval.node depth n frame) (node depth n frame) := by
  induction depth generalizing n frame with
  | zero => exact fail _
  | succ depth ih => exact step ih n frame

end Agrees

/-- A signal that is opened leaves a plain value. -/
theorem Agrees.keeps_unwrap (agrees : Agrees m d) :
    Eval.Keeps (return (← m).unwrap) Value.Settled := by
  intro s settled
  simp only [bind, EStateM.bind]
  obtain ⟨v, s', -, run, plain, kept⟩ | ⟨v, s', -, run, clean⟩ | ⟨f, s', -, run, kept⟩ :=
    agrees.ends settled
  · rw [run]
    exact ⟨(Value.settled_unwrap plain).symm ▸ plain, kept⟩
  · rw [run]
    exact clean
  · rw [run]
    exact kept

end Direct

/-- Every evaluation comes to what the direct one comes to, with the same store: a value for a
value, a signal for a raised value, a failure for the same failure. No signal holds another
one, none is bound, and none leaves a whole evaluation, a program or a call. -/
theorem eval_eq_signal_direct (depth : Nat) (s : Store) (settled : s.Settled) :
    (∀ n frame, Eval.node depth n frame s = (Direct.node depth n frame).signal s ∧
      Direct.Clean (Direct.node depth n frame s)) ∧
    (∀ n frame, evaluate depth n frame s = (Direct.evaluate depth n frame).signal s ∧
      Eval.Kept Value.Settled (evaluate depth n frame s)) ∧
    (∀ body frame, evaluateProgram depth body frame s =
        (Direct.program (Direct.node depth · frame) body).signal s ∧
      Eval.Kept Value.Settled (evaluateProgram depth body frame s)) ∧
    ∀ f args, (∀ v ∈ args, v.Settled) →
      applyFunction depth f args s = (Direct.apply (Direct.node depth) f args).signal s ∧
      Eval.Kept Value.Settled (applyFunction depth f args s) := by
  have nodes := Direct.Agrees.node depth
  refine ⟨fun n frame => nodes n frame s settled, fun n frame => ?_, fun body frame => ?_,
    fun f args plain => ?_⟩
  · exact ⟨((nodes n frame).caught s settled).1, (nodes n frame).keeps_unwrap s settled⟩
  · have body := Direct.Agrees.block (nodes · frame) body
    exact ⟨(body.caught s settled).1, body.keeps_unwrap s settled⟩
  · refine ⟨(Direct.Agrees.apply nodes f plain s settled).1, ?_⟩
    have frames := Eval.keeps_bindParams f.params f.env plain
    exact frames.bind (fun frame _ => (Direct.Agrees.block (nodes · frame) f.body).keeps_unwrap) s
      settled

/-- One frame without bindings. -/
def oneFrame : Store := ⟨#[⟨[], none⟩], 0⟩

/-- In `1 + (return 2)` the return leaves the sum, and the call of `fn(x) { return x }` opens
the signal of its body. -/
theorem eval_oneFrame : oneFrame.Settled ∧
    Eval.node 3 (.binary (utf16 "+") (.int 1) (.returnStmt (.int 2))) 0 oneFrame =
      .ok (.returning (.int 2)) oneFrame ∧
    Eval.Kept Value.Settled
      (applyFunction 3 ⟨[utf16 "x"], [.returnStmt (.ident (utf16 "x"))], 0, 0⟩ [.int 5]
        oneFrame) := by
  have settled : oneFrame.Settled := by simp [Store.Settled, oneFrame]
  obtain ⟨nodes, -, -, calls⟩ := eval_eq_signal_direct 3 oneFrame settled
  have plain : ∀ v ∈ [Value.int 5], v.Settled := by simp [Value.Settled, Value.isReturning]
  exact ⟨settled, (nodes _ 0).1, (calls _ _ plain).2⟩

end Monkey
