import Monkey.Proofs.Eval.Transparency

/-! Names that nobody mentions. Evaluation sees of a store only what is bound to the names it looks
up, so taking all bindings of another name out of the store commutes with it: the run without them
takes the same steps, makes the same frames and gives the same result. Functions that are made on
the way come from the code that runs, so they do not mention the name either. -/
namespace Monkey

/-- A function in the value has the name as a parameter or in its body. -/
def Value.Mentions (x : Text) : Value → Prop
  | function c => x ∈ c.params ++ Node.namesIn c.body
  | returning v => v.Mentions x
  | _ => False

namespace Node

theorem mem_namesIn {ns : List Node} : x ∈ namesIn ns ↔ ∃ n ∈ ns, x ∈ n.names := by
  induction ns with
  | nil => simp [namesIn]
  | cons n ns ih => simp [namesIn, ih]

/-- A tree has the names of its parts. -/
theorem mem_names_of_part {n p : Node} (part : p ∈ n.parts) (occurs : x ∈ p.names) :
    x ∈ n.names := by
  have within {ns : List Node} (member : p ∈ ns) : x ∈ namesIn ns :=
    mem_namesIn.mpr ⟨p, member, occurs⟩
  cases n with
  | program body | block body => exact within part
  | letStmt name value =>
    rw [List.mem_singleton.mp part] at occurs
    exact List.mem_cons_of_mem name occurs
  | returnStmt value | exprStmt value | unary operator value =>
    rw [List.mem_singleton.mp part] at occurs
    exact occurs
  | binary operator left right =>
    rcases List.mem_cons.mp part with rfl | part
    · exact List.mem_append_left _ occurs
    · rw [List.mem_singleton.mp part] at occurs
      exact List.mem_append_right _ occurs
  | ifThen condition consequence =>
    rcases List.mem_cons.mp part with rfl | part
    · exact List.mem_append_left _ occurs
    · exact List.mem_append_right _ (within part)
  | ifElse condition consequence alternative =>
    rcases List.mem_cons.mp part with rfl | part
    · exact List.mem_append_left _ occurs
    · apply List.mem_append_right
      rcases List.mem_append.mp part with part | part
      · exact List.mem_append_left _ (within part)
      · exact List.mem_append_right _ (within part)
  | fnLit params body => exact List.mem_append_right _ (within part)
  | call callee args =>
    rcases List.mem_cons.mp part with rfl | part
    · exact List.mem_append_left _ occurs
    · exact List.mem_append_right _ (within part)
  | ident | int | bool | unknown => cases part

end Node

section Erasure

/-- The bindings of all other names, in their order. -/
def Bindings.without (x : Text) (bs : Bindings) : Bindings := bs.filter fun b => b.1 ≠ x

def Frame.without (x : Text) (f : Frame) : Frame := { f with bindings := f.bindings.without x }

/-- The store with all bindings of the name taken out. -/
def Store.without (x : Text) (s : Store) : Store :=
  { s with frames := s.frames.map (Frame.without x) }

/-- The result of a run with all bindings of the name taken out of the store it leaves. -/
def Eval.without (x : Text) :
    EStateM.Result Failure Store α → EStateM.Result Failure Store α
  | .ok a s => .ok a (s.without x)
  | .error f s => .error f (s.without x)

namespace Bindings

variable {x a : Text}

theorem without_cons (n : Text) (v : Value) (bs : Bindings) :
    without x ((n, v) :: bs) = if n = x then bs.without x else (n, v) :: bs.without x := by
  by_cases here : n = x <;> simp [without, here]

theorem get?_without (bs : Bindings) (other : a ≠ x) : (bs.without x).get? a = bs.get? a := by
  induction bs with
  | nil => rfl
  | cons b bs ih =>
    obtain ⟨n, v⟩ := b
    rw [without_cons]
    split
    next here => rw [ih, get?, if_neg fun same => other (same.symm.trans here)]
    next => rw [get?, get?, ih]

theorem without_insert (bs : Bindings) (other : a ≠ x) (v : Value) :
    (bs.insert a v).without x = (bs.without x).insert a v := by
  induction bs with
  | nil => simp [insert, without, other]
  | cons b bs ih =>
    obtain ⟨n, w⟩ := b
    rw [insert, without_cons]
    by_cases same : n = a
    · rw [if_pos same, without_cons, if_neg other, if_neg (same ▸ other), insert, if_pos same]
    · rw [if_neg same, without_cons, ih]
      split
      next => rfl
      next => rw [insert, if_neg same]

theorem without_insert_self (bs : Bindings) (v : Value) :
    (bs.insert x v).without x = bs.without x := by
  induction bs with
  | nil => simp [insert, without]
  | cons b bs ih =>
    obtain ⟨n, w⟩ := b
    rw [insert]
    by_cases same : n = x
    · rw [if_pos same, without_cons, without_cons, if_pos rfl, if_pos same]
    · rw [if_neg same, without_cons, without_cons, ih]

theorem without_ofArguments (free : x ∉ params) (args : List Value) :
    (ofArguments params args).without x = ofArguments params args := by
  suffices ∀ bs : Bindings, bs.without x = bs →
      ((params.zip args).foldl (fun bs b => bs.insert b.1 b.2) bs).without x =
        (params.zip args).foldl (fun bs b => bs.insert b.1 b.2) bs from this [] rfl
  induction params generalizing args with
  | nil => exact fun _ same => same
  | cons p params ih =>
    intro bs same
    obtain ⟨other, free⟩ := not_or.mp (mt List.mem_cons.mpr free)
    cases args with
    | nil => exact same
    | cons v args =>
      apply ih free
      rw [without_insert bs (Ne.symm other), same]

end Bindings

namespace Store

variable {s t : Store} {x a : Text}

theorem ext_frames (closures : s.closures = t.closures) (frames : ∀ e, s.frame? e = t.frame? e) :
    s = t := by
  obtain ⟨frames', closures'⟩ := s
  obtain ⟨frames'', closures''⟩ := t
  obtain rfl : closures' = closures'' := closures
  exact congrArg (Store.mk · _) (Array.ext_getElem? frames)

theorem frame?_without (s : Store) (e : FrameId) :
    (s.without x).frame? e = (s.frame? e).map (Frame.without x) :=
  Array.getElem?_map

theorem size_without (s : Store) : (s.without x).frames.size = s.frames.size := Array.size_map

theorem bindings_without (s : Store) (e : FrameId) :
    (s.without x).bindings e = (s.bindings e).without x := by
  unfold bindings
  rw [frame?_without]
  cases s.frame? e <;> rfl

theorem outer?_without (s : Store) (e : FrameId) : (s.without x).outer? e = s.outer? e := by
  unfold outer?
  rw [frame?_without]
  cases s.frame? e <;> rfl

theorem chainFrom_without (s : Store) (fuel : Nat) (e : FrameId) :
    (s.without x).chainFrom fuel e = s.chainFrom fuel e :=
  chainFrom_congr fun d _ => s.outer?_without d

theorem lookup_without (s : Store) (e : FrameId) (other : a ≠ x) :
    (s.without x).lookup e a = s.lookup e a := by
  have here : (fun f => ((s.without x).bindings f).get? a) = fun f => (s.bindings f).get? a := by
    funext f
    rw [bindings_without, Bindings.get?_without _ other]
  rw [lookup, lookup, chain, chain, chainFrom_without, here]

theorem without_define (s : Store) (e : FrameId) (other : a ≠ x) (v : Value) :
    (s.define e a v).without x = (s.without x).define e a v := by
  refine ext_frames rfl fun d => ?_
  rw [frame?_without, frame?_define, frame?_define, frame?_without]
  split
  · cases s.frame? d with
    | none => rfl
    | some f =>
      have bindings := f.bindings.without_insert other v
      simp only [Option.map_some, Frame.without, bindings]
  · rfl

/-- A definition of the name itself is taken out again. -/
theorem without_define_self (s : Store) (e : FrameId) (x : Text) (v : Value) :
    (s.define e x v).without x = s.without x := by
  refine ext_frames rfl fun d => ?_
  rw [frame?_without, frame?_define, frame?_without]
  split
  · cases s.frame? d with
    | none => rfl
    | some f =>
      have bindings := f.bindings.without_insert_self (x := x) v
      simp only [Option.map_some, Frame.without, bindings]
  · rfl

theorem without_push (s : Store) (f : Frame) :
    (s.push f).2.without x = ((s.without x).push (f.without x)).2 := by
  refine ext_frames rfl fun d => ?_
  rw [frame?_without, frame?_push, frame?_push, frame?_without, size_without]
  split <;> rfl

/-- No function that is bound to another name mentions the name. -/
def Silent (x : Text) (s : Store) : Prop :=
  ∀ e f, s.frame? e = some f → ∀ b ∈ f.bindings, b.1 ≠ x → ¬b.2.Mentions x

theorem Silent.lookup (silent : s.Silent x) (found : s.lookup e a = some v) (other : a ≠ x) :
    ¬v.Mentions x := by
  obtain ⟨_, d, _, _, bound, _⟩ := List.findSome?_eq_some_iff.mp found
  have member := Bindings.mem_of_get? bound
  unfold bindings at member
  cases here : s.frame? d with
  | none => simp [here] at member
  | some f =>
    rw [here] at member
    exact silent d f here _ member other

theorem Silent.define (silent : s.Silent x) (e : FrameId) (a : Text) (value : ¬v.Mentions x) :
    (s.define e a v).Silent x := by
  intro d g found b member other
  rw [frame?_define] at found
  split at found
  next =>
    obtain ⟨f, before, rfl⟩ := Option.map_eq_some_iff.mp found
    rcases Bindings.mem_insert member with rfl | member
    · exact value
    · exact silent d f before b member other
  next => exact silent d g found b member other

theorem Silent.push (silent : s.Silent x) {f : Frame}
    (fresh : ∀ b ∈ f.bindings, ¬b.2.Mentions x) : (s.push f).2.Silent x := by
  intro d g found b member other
  rw [frame?_push] at found
  split at found
  next =>
    obtain rfl := Option.some.inj found
    exact fresh b member
  next => exact silent d g found b member other

/-- Which functions there are besides those bound to the name does not depend on the latter. -/
theorem Silent.of_without (silent : s.Silent x) (same : t.without x = s.without x) :
    t.Silent x := by
  intro e f found b member other
  have here := congrArg (·.frame? e) same
  simp only [frame?_without, found, Option.map_some] at here
  obtain ⟨g, found', frames⟩ := Option.map_eq_some_iff.mp here.symm
  have kept : b ∈ (g.without x).bindings := by
    rw [frames]
    exact List.mem_filter.mpr ⟨member, decide_eq_true other⟩
  exact silent e g found' b (List.mem_filter.mp kept).1 other

end Store
end Erasure

namespace Eval

/-- The store stays silent, and the result satisfies `Q`. -/
def Hushed (x : Text) (Q : α → Prop) : EStateM.Result Failure Store α → Prop
  | .ok a s => s.Silent x ∧ Q a
  | .error _ _ => True

/-- Taking the bindings of `x` out before the run or after it is the same. -/
def Overlooks (x : Text) (m : Eval α) (Q : α → Prop) : Prop :=
  ∀ s, s.Silent x → m (s.without x) = without x (m s) ∧ Hushed x Q (m s)

variable {x : Text}

/-- The value mentions nothing of `x`. -/
def Quiet (x : Text) (v : Value) : Prop := ¬v.Mentions x

theorem quiet_of_computed (computed : Computed v) : Quiet x v := by
  cases computed <;> exact id

theorem Quiet.unwrap (quiet : Quiet x v) : Quiet x v.unwrap := by
  cases v <;> exact quiet

namespace Overlooks

theorem pure {Q : α → Prop} (value : Q a) : Overlooks x (pure a) Q :=
  fun _ silent => ⟨rfl, silent, value⟩

theorem fail {Q : α → Prop} (f : Failure) : Overlooks x (throw f) Q :=
  fun _ _ => ⟨rfl, trivial⟩

theorem bind {m : Eval α} {q : α → Eval β} {P : α → Prop} {Q : β → Prop}
    (first : Overlooks x m P) (next : ∀ a, P a → Overlooks x (q a) Q) :
    Overlooks x (m >>= q) Q := by
  intro s silent
  obtain ⟨same, hushed⟩ := first s silent
  simp only [Bind.bind, EStateM.bind, same]
  cases result : m s with
  | error f s' => exact ⟨rfl, trivial⟩
  | ok a middle =>
    rw [result] at hushed
    exact next a hushed.2 middle hushed.1

theorem onValue {next : Value → Eval Value} (first : Overlooks x m (Quiet x))
    (rest : ∀ v, Quiet x v → Overlooks x (next v) (Quiet x)) :
    Overlooks x (Eval.onValue m next) (Quiet x) := by
  refine first.bind fun v quiet => ?_
  cases v with
  | returning v => exact pure quiet
  | _ => exact rest _ quiet

theorem unwrapped (run : Overlooks x m (Quiet x)) :
    Overlooks x (return (← m).unwrap) (Quiet x) :=
  run.bind fun _ quiet => pure quiet.unwrap

section Parts

variable {eval : Node → Eval Value} {ns : List Node}
  (parts : ∀ n ∈ ns, Overlooks x (eval n) (Quiet x))
include parts

theorem statements (value : Quiet x last) :
    Overlooks x (Eval.statements eval last ns) (Quiet x) := by
  induction ns generalizing last with
  | nil => exact pure value
  | cons n ns ih =>
    obtain ⟨first, others⟩ := List.forall_mem_cons.mp parts
    exact first.onValue fun v quiet => ih others quiet

theorem block : Overlooks x (Eval.block eval ns) (Quiet x) := statements parts id

theorem arguments {next : List Value → Eval Value}
    (rest : ∀ vs, (∀ v ∈ vs, Quiet x v) → Overlooks x (next vs) (Quiet x)) :
    Overlooks x (Eval.arguments eval next ns) (Quiet x) := by
  induction ns generalizing next with
  | nil => exact rest [] nofun
  | cons n ns ih =>
    obtain ⟨first, others⟩ := List.forall_mem_cons.mp parts
    refine first.onValue fun v quiet => ih others fun vs quiets => ?_
    exact rest (v :: vs) (List.forall_mem_cons.mpr ⟨quiet, quiets⟩)

end Parts
end Overlooks

theorem overlooks_define (e : FrameId) (other : a ≠ x) (quiet : Quiet x v) :
    Overlooks x (define e a v) fun _ => True := by
  intro s silent
  refine ⟨?_, silent.define e a quiet, trivial⟩
  exact congrArg (EStateM.Result.ok ()) (s.without_define e other v).symm

theorem overlooks_readName (e : FrameId) (other : a ≠ x) :
    Overlooks x (readName e a) (Quiet x) := by
  intro s silent
  constructor
  · have seen := s.lookup_without e other
    exact congrArg (fun v => EStateM.Result.ok (v.getD .null) (s.without x)) seen
  · refine ⟨silent, ?_⟩
    cases found : s.lookup e a with
    | none => exact id
    | some v => exact silent.lookup found other

theorem overlooks_newFunction (e : FrameId) (free : x ∉ params ++ Node.namesIn body) :
    Overlooks x (newFunction params body e) (Quiet x) :=
  fun _ silent => ⟨rfl, silent, free⟩

theorem overlooks_bindParams (outer : FrameId) (free : x ∉ params)
    (quiet : ∀ v ∈ args, Quiet x v) :
    Overlooks x (bindParams params args outer) fun _ => True := by
  intro s silent
  rw [bindParams_run, bindParams_run]
  split
  next =>
    refine ⟨?_, silent.push fun b member => quiet _ (Bindings.mem_ofArguments member), trivial⟩
    have pushed := s.without_push (x := x) ⟨.ofArguments params args, some outer⟩
    rw [Frame.without, Bindings.without_ofArguments free] at pushed
    rw [Store.size_without, without, pushed]
  next => exact ⟨rfl, trivial⟩

theorem overlooks_binary (operator : Text) (left right : Node) (l r : Value) :
    Overlooks x (binary operator left right l r) (Quiet x) := by
  unfold binary
  cases result : applyBinary operator l r with
  | none => exact .fail _
  | some v => exact .pure (quiet_of_computed (applyBinary_computed result))

section Nodes

variable {eval : Node → FrameId → Eval Value}
  (parts : ∀ {n}, x ∉ n.names → ∀ e, Overlooks x (eval n e) (Quiet x))
include parts

theorem overlooks_body (free : x ∉ Node.namesIn ns) (e : FrameId) :
    ∀ n ∈ ns, Overlooks x (eval n e) (Quiet x) :=
  fun n member => parts (fun occurs => free (Node.mem_namesIn.mpr ⟨n, member, occurs⟩)) e

theorem overlooks_apply (f : Closure) (callee : Quiet x (.function f))
    (quiet : ∀ v ∈ args, Quiet x v) : Overlooks x (apply eval f args) (Quiet x) := by
  obtain ⟨names, body⟩ := not_or.mp (mt List.mem_append.mpr callee)
  refine (overlooks_bindParams f.env names quiet).bind fun e _ => ?_
  exact (Overlooks.block (overlooks_body parts body e)).unwrapped

theorem overlooks_call (f : Value) (callee : Quiet x f) (quiet : ∀ v ∈ args, Quiet x v) :
    Overlooks x (call eval f args) (Quiet x) := by
  cases f with
  | function c => exact overlooks_apply parts c callee quiet
  | _ => exact .pure id

theorem overlooks_step (n : Node) (free : x ∉ n.names) (e : FrameId) :
    Overlooks x (step eval n e) (Quiet x) := by
  have part {p : Node} (member : p ∈ n.parts) : Overlooks x (eval p e) (Quiet x) :=
    parts (fun occurs => free (Node.mem_names_of_part member occurs)) e
  cases n with
  | program body => exact (Overlooks.block fun p member => part member).unwrapped
  | block body => exact .block fun p member => part member
  | letStmt name value =>
    have other : name ≠ x := fun same => free (same ▸ List.mem_cons_self)
    refine (part List.mem_cons_self).onValue fun v quiet => ?_
    exact (overlooks_define e other quiet).bind fun _ _ => .pure quiet
  | returnStmt value => exact (part List.mem_cons_self).onValue fun v quiet => .pure quiet
  | exprStmt expr => exact part List.mem_cons_self
  | ident name => exact overlooks_readName e fun same => free (same ▸ List.mem_cons_self)
  | int value => exact .pure id
  | bool value => exact .pure id
  | unary operator operand =>
    refine (part List.mem_cons_self).onValue fun v _ => .pure ?_
    exact quiet_of_computed (applyUnary_computed operator v)
  | binary operator left right =>
    refine (part List.mem_cons_self).onValue fun l _ => ?_
    refine (part (List.mem_cons_of_mem _ List.mem_cons_self)).onValue fun r _ => ?_
    exact overlooks_binary operator left right l r
  | ifThen condition consequence =>
    refine (part List.mem_cons_self).onValue fun v _ => ?_
    by_cases truthy : v.isTruthy = true
    · simp only [if_pos truthy]
      exact .block fun p member => part (List.mem_cons_of_mem _ member)
    · simp only [if_neg truthy]
      exact .pure id
  | ifElse condition consequence alternative =>
    refine (part List.mem_cons_self).onValue fun v _ => .block fun p member => ?_
    apply part
    apply List.mem_cons_of_mem
    split at member
    · exact List.mem_append_left _ member
    · exact List.mem_append_right _ member
  | fnLit params body => exact overlooks_newFunction e free
  | call callee args =>
    refine (part List.mem_cons_self).onValue fun f quiet => ?_
    refine .arguments (fun p member => part (List.mem_cons_of_mem _ member)) fun vs quiets => ?_
    exact overlooks_call parts f quiet quiets
  | unknown kind => exact .fail _

end Nodes

theorem overlooks_node (depth : Nat) {n : Node} (free : x ∉ n.names) (e : FrameId) :
    Overlooks x (node depth n e) (Quiet x) := by
  induction depth generalizing n e with
  | zero => exact .fail _
  | succ depth ih => exact overlooks_step ih n free e

theorem overlooks_program (depth : Nat) {body : List Node} (free : x ∉ Node.namesIn body)
    (e : FrameId) : Overlooks x (evaluateProgram depth body e) (Quiet x) :=
  (Overlooks.block (overlooks_body (overlooks_node depth) free e)).unwrapped

/-- Runs from stores that are the same without the name are the same without it. -/
theorem Overlooks.same {m : Eval α} {s t : Store} (run : Overlooks x m Q) (silent : s.Silent x)
    (same : t.without x = s.without x) : without x (m t) = without x (m s) := by
  rw [← (run t (silent.of_without same)).1, same, (run s silent).1]

/-- From both stores the evaluation has the same outcome and leaves as many frames, with the same
bindings of names other than `x`, in the same order. -/
structure AgreesBut (x : Text) (m : Eval Value) (s t : Store) : Prop where
  outcome : SameOutcome (fun f g => f.params = g.params ∧ f.body = g.body) (m s) (m t)
  frames : (m.after s).frames.size = (m.after t).frames.size
  bindings (d : FrameId) : ((m.after s).bindings d).without x = ((m.after t).bindings d).without x

theorem resembles_self (v : Value) :
    v.Resembles (fun f g => f.params = g.params ∧ f.body = g.body) v := by
  induction v with
  | function c => exact ⟨rfl, rfl⟩
  | returning v ih => exact ih
  | null => trivial
  | _ => rfl

theorem agreesBut_of_without {m : Eval Value} {s t : Store}
    (same : without x (m s) = without x (m t)) : AgreesBut x m s t := by
  have stores : (m.after s).without x = (m.after t).without x ∧
      SameOutcome (fun f g => f.params = g.params ∧ f.body = g.body) (m s) (m t) := by
    unfold after
    cases run : m s with
    | ok v s' =>
      cases run' : m t with
      | ok w t' =>
        rw [run, run', without, without] at same
        obtain ⟨rfl, stores⟩ := EStateM.Result.ok.inj same
        exact ⟨stores, resembles_self v⟩
      | error g t' =>
        rw [run, run'] at same
        cases same
    | error f s' =>
      cases run' : m t with
      | ok w t' =>
        rw [run, run'] at same
        cases same
      | error g t' =>
        rw [run, run', without, without] at same
        obtain ⟨rfl, stores⟩ := EStateM.Result.error.inj same
        exact ⟨stores, rfl, Iff.rfl⟩
  obtain ⟨stores, outcome⟩ := stores
  refine ⟨outcome, ?_, fun d => ?_⟩
  · rw [← Store.size_without (x := x), stores, Store.size_without]
  · rw [← Store.bindings_without, stores, Store.bindings_without]

end Eval

/-- A binding that neither the program nor a function in the store mentions does not matter, to
whatever it binds the name and wherever in its frame it stands. -/
theorem evaluateProgram_unmentioned (depth : Nat) {s : Store} (f : FrameId) (x : Text) (v : Value)
    (body : List Node) (e : FrameId) (free : x ∉ Node.namesIn body) (silent : s.Silent x) :
    Eval.AgreesBut x (evaluateProgram depth body e) (s.define f x v) s ∧
      ∀ t, t.without x = s.without x → Eval.AgreesBut x (evaluateProgram depth body e) t s := by
  have run := Eval.overlooks_program depth free e
  have general : ∀ t, t.without x = s.without x →
      Eval.AgreesBut x (evaluateProgram depth body e) t s :=
    fun t same => Eval.agreesBut_of_without (run.same silent same)
  exact ⟨general _ (s.without_define_self f x v), general⟩

/-- One frame, after `let n = 5; let add = fn(a) { let b = a + n; b }`. -/
def addingStore : Store :=
  ⟨#[⟨[(utf16 "n", .int 5), (utf16 "add", .function ⟨[utf16 "a"],
    [.letStmt (utf16 "b") (.binary (utf16 "+") (.ident (utf16 "a")) (.ident (utf16 "n"))),
      .exprStmt (.ident (utf16 "b"))], 0, 0⟩)], none⟩], 1⟩

/-- The program `let m = add(2); fn() { m }`. -/
def keepingSum : List Node :=
  [.letStmt (utf16 "m") (.call (.ident (utf16 "add")) [.int 2]),
    .exprStmt (.fnLit [] [.exprStmt (.ident (utf16 "m"))])]

theorem evaluateProgram_unmentioned_keepingSum : addingStore.Silent (utf16 "x") ∧
    utf16 "x" ∉ Node.namesIn keepingSum ∧
    (∃ g t, evaluateProgram 6 keepingSum 0 addingStore = .ok (.function g) t) ∧
    Eval.AgreesBut (utf16 "x") (evaluateProgram 6 keepingSum 0)
      (addingStore.define 0 (utf16 "x") (.int 100)) addingStore := by
  have free : utf16 "x" ∉ Node.namesIn keepingSum := by decide
  have silent : addingStore.Silent (utf16 "x") := by
    rintro (_ | e) f found
    · obtain rfl := Option.some.inj found
      refine List.forall_mem_cons.mpr ⟨fun _ => id, List.forall_mem_singleton.mpr fun _ => ?_⟩
      show ¬utf16 "x" ∈ _
      decide
    · cases found
  exact ⟨silent, free, ⟨_, _, rfl⟩, (evaluateProgram_unmentioned 6 0 (utf16 "x") (.int 100)
    keepingSum 0 free silent).1⟩

end Monkey
