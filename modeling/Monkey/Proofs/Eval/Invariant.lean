import Monkey.Proofs.Eval.Footprint

/-! Invariants of evaluation. An invariant says which code may run, which values may be held
once there are so many frames, and how a run may fail. If it is closed under the forms of the
language, then evaluation from a store that holds only such values never leaves it, and fails
only as it may. -/
namespace Monkey

/-- The nodes that a node is made of. -/
def Node.parts : Node → List Node
  | program body | block body | fnLit _ body => body
  | letStmt _ value | returnStmt value | exprStmt value | unary _ value => [value]
  | binary _ left right => [left, right]
  | ifThen condition consequence => condition :: consequence
  | ifElse condition consequence alternative => condition :: (consequence ++ alternative)
  | call callee args => callee :: args
  | ident _ | int _ | bool _ | unknown _ => []

section Stores

variable {V : Nat → Value → Prop} {s : Store}

namespace Bindings

theorem mem_of_get? {bs : Bindings} (found : bs.get? name = some v) : (name, v) ∈ bs := by
  induction bs with
  | nil => cases found
  | cons b bs ih =>
    unfold get? at found
    split at found
    next same =>
      cases found
      cases same
      exact List.mem_cons_self
    next => exact List.mem_cons_of_mem _ (ih found)

theorem mem_insert {bs : Bindings} (member : b ∈ bs.insert name v) : b = (name, v) ∨ b ∈ bs := by
  induction bs with
  | nil => exact .inl (List.mem_singleton.mp member)
  | cons c bs ih =>
    unfold insert at member
    split at member
    · exact (List.mem_cons.mp member).imp_right (List.mem_cons_of_mem _)
    · rcases List.mem_cons.mp member with rfl | member
      · exact .inr List.mem_cons_self
      · exact (ih member).imp_right (List.mem_cons_of_mem _)

theorem mem_foldl {pairs : List (Text × Value)} {bs : Bindings}
    (member : b ∈ pairs.foldl (fun bs b => bs.insert b.1 b.2) bs) : b ∈ pairs ∨ b ∈ bs := by
  induction pairs generalizing bs with
  | nil => exact .inr member
  | cons p pairs ih =>
    rcases ih member with member | member
    · exact .inl (List.mem_cons_of_mem _ member)
    · rcases mem_insert member with rfl | member
      · exact .inl List.mem_cons_self
      · exact .inr member

/-- What a call binds are its arguments. -/
theorem mem_ofArguments (member : b ∈ ofArguments params args) : b.2 ∈ args := by
  rcases mem_foldl member with member | member
  · exact (List.of_mem_zip member).2
  · cases member

end Bindings

namespace Store

/-- Each frame is nested in an earlier one, and what is bound satisfies `V` for the number of
frames that there are. -/
def Holds (V : Nat → Value → Prop) (s : Store) : Prop :=
  ∀ e f, s.frame? e = some f →
    (∀ o, f.outer = some o → o < e) ∧ ∀ b ∈ f.bindings, V s.frames.size b.2

theorem holds_empty : empty.Holds V := by
  intro e f found
  cases found

theorem Holds.bindings (holds : s.Holds V) (e : FrameId) :
    ∀ b ∈ s.bindings e, V s.frames.size b.2 := by
  unfold Store.bindings
  cases found : s.frame? e with
  | none => simp
  | some f => exact (holds e f found).2

theorem Holds.lookup (holds : s.Holds V) (found : s.lookup e name = some v) :
    V s.frames.size v := by
  obtain ⟨_, f, _, _, bound, _⟩ := List.findSome?_eq_some_iff.mp found
  exact holds.bindings f _ (Bindings.mem_of_get? bound)

theorem Holds.push (holds : s.Holds V) (grow : ∀ {n v}, V n v → V (n + 1) v) {f : Frame}
    (outer : ∀ o, f.outer = some o → o < s.frames.size)
    (fresh : ∀ b ∈ f.bindings, V s.frames.size b.2) : (s.push f).2.Holds V := by
  intro e g found
  rw [size_push]
  rw [frame?_push] at found
  split at found
  next last =>
    cases found
    cases last
    exact ⟨outer, fun b member => grow (fresh b member)⟩
  next =>
    obtain ⟨nested, bound⟩ := holds e g found
    exact ⟨nested, fun b member => grow (bound b member)⟩

theorem Holds.define (holds : s.Holds V) (e : FrameId) (name : Text)
    (value : V s.frames.size v) : (s.define e name v).Holds V := by
  intro d g found
  rw [size_define]
  rw [frame?_define] at found
  split at found
  next same =>
    obtain ⟨f, before, rfl⟩ := Option.map_eq_some_iff.mp found
    obtain ⟨nested, bound⟩ := holds d f before
    refine ⟨nested, fun b member => ?_⟩
    rcases Bindings.mem_insert member with rfl | member
    · exact value
    · exact bound b member
  next => exact holds d g found

end Store
end Stores

/-- Code that may run, values that may be held among `n` frames and failures that may arise,
closed under what the forms of the language do with them. -/
structure Invariant where
  code : Node → Prop
  held : Nat → Value → Prop
  fails : Failure → Prop
  parts : code n → ∀ m ∈ n.parts, code m
  grow : held n v → n ≤ m → held m v
  literal : code (.int k) → held n (.int k)
  wrapped : held n (.int (wrap k))
  bool : held n (.bool b)
  null : held n .null
  unwrap : held n v → held n v.unwrap
  function : code (.fnLit params body) → e < n → held n (.function ⟨params, body, e, stamp⟩)
  closure : held n (.function c) → c.env < n ∧ ∀ m ∈ c.body, code m
  tooDeep : fails .tooDeep
  divisionByZero : fails (.divisionByZero node l r)
  argumentCount : args.length ≠ params.length → fails (.argumentCount params args)
  unexpectedNode : code (.unknown kind) → fails (.unexpectedNode kind)

theorem Invariant.computed (I : Invariant) (value : Computed v) : I.held n v := by
  cases value with
  | int k => exact I.wrapped
  | bool b => exact I.bool
  | null => exact I.null

namespace Eval

variable (I : Invariant)

/-- The frames are at least `n`, they hold what they may, and the result satisfies `Q` or the
failure may arise. -/
def Stays (n : Nat) (Q : Nat → α → Prop) : EStateM.Result Failure Store α → Prop
  | .ok a s => n ≤ s.frames.size ∧ s.Holds I.held ∧ Q s.frames.size a
  | .error f s => n ≤ s.frames.size ∧ s.Holds I.held ∧ I.fails f

/-- Once there are `n` frames, every run keeps the invariant. -/
def Respects (n : Nat) (m : Eval α) (Q : Nat → α → Prop) : Prop :=
  ∀ s, n ≤ s.frames.size → s.Holds I.held → Stays I s.frames.size Q (m s)

variable {I}

/-- The value that is returned, or that a signal carries, may be held. -/
def Gives (I : Invariant) (n : Nat) (v : Value) : Prop := I.held n v.unwrap

theorem Stays.sooner {Q : Nat → α → Prop} (stays : Stays I k Q result) (le : n ≤ k) :
    Stays I n Q result := by
  cases result with
  | ok a s => exact ⟨Nat.le_trans le stays.1, stays.2⟩
  | error f s => exact ⟨Nat.le_trans le stays.1, stays.2⟩

namespace Respects

theorem later (run : Respects I n m Q) (le : n ≤ k) : Respects I k m Q :=
  fun s many => run s (Nat.le_trans le many)

theorem pure {Q : Nat → α → Prop} (value : ∀ k, n ≤ k → Q k a) : Respects I n (pure a) Q :=
  fun s many holds => ⟨Nat.le_refl _, holds, value s.frames.size many⟩

theorem fail {Q : Nat → α → Prop} (may : I.fails f) : Respects I n (throw f) Q :=
  fun _ _ holds => ⟨Nat.le_refl _, holds, may⟩

theorem bind {m : Eval α} {q : α → Eval β} {P : Nat → α → Prop} {Q : Nat → β → Prop}
    (first : Respects I n m P) (next : ∀ k a, n ≤ k → P k a → Respects I k (q a) Q) :
    Respects I n (m >>= q) Q := by
  intro s many holds
  have stays := first s many holds
  simp only [Bind.bind, EStateM.bind]
  cases result : m s with
  | error f s' =>
    rw [result] at stays
    exact stays
  | ok a middle =>
    rw [result] at stays
    obtain ⟨more, kept, value⟩ := stays
    exact (next _ a (Nat.le_trans many more) value middle (Nat.le_refl _) kept).sooner more

theorem unwrapped (run : Respects I n m (Gives I)) :
    Respects I n (return (← m).unwrap) I.held :=
  run.bind fun _ _ _ value => pure fun _ le => I.grow value le

theorem gives (run : Respects I n m I.held) : Respects I n m (Gives I) := by
  have whole := run.bind fun k v _ value => pure (I := I) (Q := Gives I) (a := v)
    fun _ le => I.unwrap (I.grow value le)
  rwa [bind_pure] at whole

theorem held {v : Value} (value : I.held n v) : Respects I n (Pure.pure v) (Gives I) :=
  pure fun _ le => I.unwrap (I.grow value le)

theorem onValue {next : Value → Eval Value} (first : Respects I n m (Gives I))
    (rest : ∀ k v, n ≤ k → I.held k v → Respects I k (next v) (Gives I)) :
    Respects I n (Eval.onValue m next) (Gives I) := by
  refine first.bind fun k v le value => ?_
  cases v with
  | returning v => exact pure fun _ le => I.grow value le
  | _ => exact rest k _ le value

theorem statements {eval : Node → Eval Value} {ns : List Node}
    (parts : ∀ m ∈ ns, Respects I n (eval m) (Gives I)) (value : I.held n last) :
    Respects I n (Eval.statements eval last ns) (Gives I) := by
  induction ns generalizing last n with
  | nil => exact held value
  | cons m ns ih =>
    obtain ⟨first, others⟩ := List.forall_mem_cons.mp parts
    exact first.onValue fun k v le value => ih (fun m member => (others m member).later le) value

theorem block {eval : Node → Eval Value} {body : List Node}
    (parts : ∀ m ∈ body, Respects I n (eval m) (Gives I)) :
    Respects I n (Eval.block eval body) (Gives I) := statements parts I.null

theorem arguments {eval : Node → Eval Value} {ns : List Node}
    (parts : ∀ m ∈ ns, Respects I n (eval m) (Gives I)) {next : List Value → Eval Value}
    (rest : ∀ k vs, n ≤ k → (∀ v ∈ vs, I.held k v) → Respects I k (next vs) (Gives I)) :
    Respects I n (Eval.arguments eval next ns) (Gives I) := by
  induction ns generalizing next n with
  | nil => exact rest n [] (Nat.le_refl n) (by simp)
  | cons m ns ih =>
    obtain ⟨first, others⟩ := List.forall_mem_cons.mp parts
    refine first.onValue fun k v le value =>
      ih (fun m member => (others m member).later le) fun j vs le' values => ?_
    exact rest j (v :: vs) (Nat.le_trans le le')
      (List.forall_mem_cons.mpr ⟨I.grow value le', values⟩)

end Respects

theorem respects_define (frame : FrameId) (name : Text) (value : I.held n v) :
    Respects I n (define frame name v) fun _ _ => True := by
  intro s many holds
  refine ⟨?_, holds.define frame name (I.grow value many), trivial⟩
  exact Nat.le_of_eq (s.size_define frame name v).symm

theorem respects_readName (frame : FrameId) (name : Text) :
    Respects I n (readName frame name) I.held := by
  intro s _ holds
  refine ⟨Nat.le_refl _, holds, ?_⟩
  cases found : s.lookup frame name with
  | none => exact I.null
  | some v => exact holds.lookup found

theorem stays_push {s : Store} {f : Frame} (holds : s.Holds I.held)
    (outer : ∀ o, f.outer = some o → o < s.frames.size)
    (fresh : ∀ b ∈ f.bindings, I.held s.frames.size b.2) :
    Stays I s.frames.size (fun k e => e < k) (.ok s.frames.size (s.push f).2) := by
  refine ⟨?_, holds.push (I.grow · (Nat.le_succ _)) outer fresh, ?_⟩
  · simp
  · simp

theorem respects_newFrame (outside : ∀ o, outer = some o → o < n) :
    Respects I n (newFrame outer) fun k e => e < k :=
  fun _ many holds =>
    stays_push holds (fun o nested => Nat.lt_of_lt_of_le (outside o nested) many) nofun

theorem respects_newFunction (literal : I.code (.fnLit params body)) (inside : frame < n) :
    Respects I n (newFunction params body frame) I.held :=
  fun _ many holds =>
    ⟨Nat.le_refl _, holds, I.function literal (Nat.lt_of_lt_of_le inside many)⟩

theorem respects_bindParams (params : List Text) (inside : outer < n)
    (values : ∀ v ∈ args, I.held n v) :
    Respects I n (bindParams params args outer) fun k e => e < k := by
  intro s many holds
  rw [bindParams_run]
  split
  next =>
    refine stays_push holds ?_ fun b member => ?_
    · rintro o ⟨⟩
      exact Nat.lt_of_lt_of_le inside many
    · exact I.grow (values _ (Bindings.mem_ofArguments member)) many
  next count => exact ⟨Nat.le_refl _, holds, I.argumentCount count⟩

theorem respects_binary (operator : Text) (left right : Node) (l r : Value) :
    Respects I n (binary operator left right l r) I.held := by
  unfold binary
  cases result : applyBinary operator l r with
  | none => exact .fail I.divisionByZero
  | some v => exact .pure fun _ _ => I.computed (applyBinary_computed result)

section Nodes

variable {eval : Node → FrameId → Eval Value}
  (parts : ∀ {n e m}, I.code m → e < n → Respects I n (eval m e) (Gives I))
include parts

theorem respects_apply (f : Closure) (callable : I.held n (.function f))
    (values : ∀ v ∈ args, I.held n v) : Respects I n (apply eval f args) I.held := by
  obtain ⟨inside, body⟩ := I.closure callable
  refine (respects_bindParams f.params inside values).bind fun k e _ inside => ?_
  exact (Respects.block fun m member => parts (body m member) inside).unwrapped

theorem respects_call (callee : Value) (callable : I.held n callee)
    (values : ∀ v ∈ args, I.held n v) : Respects I n (call eval callee args) (Gives I) := by
  cases callee with
  | function f => exact (respects_apply parts f callable values).gives
  | _ => exact .held I.null

theorem respects_step (m : Node) (e : FrameId) (code : I.code m) (inside : e < n) :
    Respects I n (step eval m e) (Gives I) := by
  have part : ∀ {k p}, n ≤ k → p ∈ m.parts → Respects I k (eval p e) (Gives I) :=
    fun le member => parts (I.parts code _ member) (Nat.lt_of_lt_of_le inside le)
  have here := Nat.le_refl n
  cases m with
  | program body => exact (Respects.block fun p member => part here member).unwrapped.gives
  | block body => exact .block fun p member => part here member
  | letStmt name value =>
    refine (part here (by simp [Node.parts])).onValue fun k v _ held => ?_
    exact (respects_define e name held).bind fun _ _ le _ => .held (I.grow held le)
  | returnStmt value =>
    refine (part here (by simp [Node.parts])).onValue fun k v _ held => ?_
    exact .pure fun _ le => I.grow held le
  | exprStmt expr => exact part here (by simp [Node.parts])
  | ident name => exact (respects_readName e name).gives
  | int value => exact .held (I.literal code)
  | bool value => exact .held I.bool
  | unary operator operand =>
    exact (part here (by simp [Node.parts])).onValue fun k v _ _ => 
      .held (I.computed (applyUnary_computed operator v))
  | binary operator left right =>
    refine (part here (by simp [Node.parts])).onValue fun k l le _ => ?_
    refine (part le (by simp [Node.parts])).onValue fun j r _ _ => ?_
    exact (respects_binary operator left right l r).gives
  | ifThen condition consequence =>
    refine (part here (by simp [Node.parts])).onValue fun k v le _ => ?_
    by_cases truthy : v.isTruthy = true
    · simp only [if_pos truthy]
      exact .block fun p member => part le (by simp [Node.parts, member])
    · simp only [if_neg truthy]
      exact .held I.null
  | ifElse condition consequence alternative =>
    refine (part here (by simp [Node.parts])).onValue fun k v le _ => ?_
    refine .block fun p member => part le ?_
    split at member <;> simp [Node.parts, member]
  | fnLit params body => exact (respects_newFunction code inside).gives
  | call callee args =>
    refine (part here (by simp [Node.parts])).onValue fun k f le callable => ?_
    refine .arguments (fun p member => part le (by simp [Node.parts, member])) ?_
    exact fun j vs le' values => respects_call parts f (I.grow callable le') values
  | unknown kind => exact .fail (I.unexpectedNode code)

end Nodes

theorem respects_node (depth : Nat) {m : Node} (code : I.code m) (inside : e < n) :
    Respects I n (node depth m e) (Gives I) := by
  induction depth generalizing m e n with
  | zero => exact .fail I.tooDeep
  | succ depth ih => exact respects_step ih m e code inside

theorem respects_program (depth : Nat) {body : List Node} (code : ∀ m ∈ body, I.code m)
    (inside : e < n) : Respects I n (evaluateProgram depth body e) I.held :=
  (Respects.block fun m member => respects_node depth (code m member) inside).unwrapped

theorem Respects.after {I : Invariant} {Q : Nat → α → Prop} (run : Respects I s.frames.size m Q)
    (holds : s.Holds I.held) : (m.after s).Holds I.held := by
  have stays := run s (Nat.le_refl _) holds
  unfold Eval.after
  cases result : m s with
  | ok a s' =>
    rw [result] at stays
    exact stays.2.1
  | error f s' =>
    rw [result] at stays
    exact stays.2.1

end Eval
end Monkey
