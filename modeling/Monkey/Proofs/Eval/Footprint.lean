import Mathlib.Order.Defs.Unbundled
import Monkey.Eval.Basic

/-! What an evaluation writes. It changes bindings in its own frame and in the frames that it
makes itself; every other frame stays as it is, and no frame is ever moved. A call works in a
frame of its own, so it changes nothing that was there before. -/
namespace Monkey

namespace Eval

/-- The store that an evaluation leaves, however it ends. -/
def after (m : Eval α) (s : Store) : Store :=
  match m s with
  | .ok _ s' => s'
  | .error _ s' => s'

/-- Every run takes the store along `T`. -/
def Moves (T : Store → Store → Prop) (m : Eval α) : Prop := ∀ s, T s (m.after s)

namespace Moves

variable {T : Store → Store → Prop} [IsPreorder Store T]

theorem pure (a : α) : Moves T (pure a) := fun s => refl_of T s

theorem fail (f : Failure) : Moves T (throw f : Eval α) := fun s => refl_of T s

theorem bind {m : Eval α} {q : α → Eval β} (first : Moves T m) (next : ∀ a, Moves T (q a)) :
    Moves T (m >>= q) := by
  intro s
  have moved := first s
  simp only [after, Bind.bind, EStateM.bind] at moved ⊢
  cases result : m s with
  | ok a middle =>
    rw [result] at moved
    exact trans_of T moved (next a middle)
  | error f s' =>
    rw [result] at moved
    exact moved

theorem onValue (first : Moves T m) (rest : ∀ v, Moves T (next v)) :
    Moves T (Eval.onValue m next) := by
  refine first.bind fun v => ?_
  cases v with
  | returning v => exact pure _
  | _ => exact rest _

theorem statements {eval : Node → Eval Value} {ns : List Node}
    (parts : ∀ n ∈ ns, Moves T (eval n)) (last : Value) :
    Moves T (Eval.statements eval last ns) := by
  induction ns generalizing last with
  | nil => exact pure _
  | cons n ns ih =>
    obtain ⟨first, others⟩ := List.forall_mem_cons.mp parts
    exact first.onValue (ih others)

theorem block {eval : Node → Eval Value} {body : List Node}
    (parts : ∀ n ∈ body, Moves T (eval n)) : Moves T (Eval.block eval body) :=
  statements parts .null

theorem arguments {eval : Node → Eval Value} {ns : List Node}
    (parts : ∀ n ∈ ns, Moves T (eval n)) {next : List Value → Eval Value}
    (rest : ∀ vs, Moves T (next vs)) : Moves T (Eval.arguments eval next ns) := by
  induction ns generalizing next with
  | nil => exact rest []
  | cons n ns ih =>
    obtain ⟨first, others⟩ := List.forall_mem_cons.mp parts
    exact first.onValue fun v => ih others fun vs => rest (v :: vs)

theorem binary (operator : Text) (left right : Node) (l r : Value) :
    Moves T (Eval.binary operator left right l r) := by
  unfold Eval.binary
  split
  · exact pure _
  · exact fail _

end Moves
end Eval

namespace Store

/-- Every frame of `s` is in `s'` as it was. -/
def KeptIn (s s' : Store) : Prop := ∀ id f, s.frame? id = some f → s'.frame? id = some f

/-- Every frame of `s` is in `s'` with the outer frame it had and, unless it is `e`, with the
bindings it had, in their order. -/
def KeptBut (e : FrameId) (s s' : Store) : Prop :=
  ∀ id f, s.frame? id = some f →
    ∃ f', s'.frame? id = some f' ∧ f'.outer = f.outer ∧ (id ≠ e → f'.bindings = f.bindings)

instance : IsPreorder Store KeptIn where
  refl _ _ _ found := found
  trans _ _ _ first second id f found := second id f (first id f found)

instance : IsPreorder Store (KeptBut e) where
  refl _ _ f found := ⟨f, found, rfl, fun _ => rfl⟩
  trans _ _ _ first second id f found := by
    obtain ⟨g, found, outer, bindings⟩ := first id f found
    obtain ⟨h, found, outer', bindings'⟩ := second id g found
    exact ⟨h, found, outer'.trans outer, fun other => (bindings' other).trans (bindings other)⟩

variable {s s' : Store}

theorem KeptIn.keptBut (kept : s.KeptIn s') (e : FrameId) : s.KeptBut e s' :=
  fun id f found => ⟨f, kept id f found, rfl, fun _ => rfl⟩

/-- A write to a frame that was not there is no write to the frames that were. -/
theorem KeptBut.keptIn (kept : s.KeptBut e s') (fresh : s.frame? e = none) : s.KeptIn s' := by
  intro id f found
  obtain ⟨f', found', outer, bindings⟩ := kept id f found
  have other : id ≠ e := by
    rintro rfl
    rw [fresh] at found
    cases found
  obtain ⟨_, _⟩ := f
  obtain ⟨_, _⟩ := f'
  cases outer
  cases bindings other
  exact found'

theorem keptIn_push (s : Store) (f : Frame) : s.KeptIn (s.push f).2 := by
  intro id g found
  rw [frame?_push, if_neg (Nat.ne_of_lt (frame?_lt found)), found]

theorem keptBut_define (s : Store) (e : FrameId) (name : Text) (v : Value) :
    s.KeptBut e (s.define e name v) := by
  intro id f found
  rw [frame?_define, found]
  by_cases same : e = id
  · exact ⟨_, if_pos same, rfl, fun other => absurd same.symm other⟩
  · exact ⟨f, if_neg same, rfl, fun _ => rfl⟩

end Store

namespace Eval

/-- A call is refused before its frame is made, or its frame is the next one. -/
theorem bindParams_run (params : List Text) (args : List Value) (outer : FrameId) (s : Store) :
    bindParams params args outer s =
      if args.length = params.length then
        .ok s.frames.size (s.push ⟨.ofArguments params args, some outer⟩).2
      else .error (.argumentCount params args) s := by
  unfold bindParams extend
  split
  next count => rw [if_pos count.symm]; rfl
  next => rfl

/-- `T e` allows what evaluation in the frame `e` does by itself: definitions in `e`, new functions,
and a call, given what `T` allows in the frame of the call. -/
structure Allowed (T : FrameId → Store → Store → Prop) : Prop where
  preorder (e : FrameId) : IsPreorder Store (T e)
  define (s : Store) (e : FrameId) (name : Text) (v : Value) : T e s (s.define e name v)
  stamp (s : Store) (e : FrameId) : T e s { s with closures := s.closures + 1 }
  call (e : FrameId) {s s' : Store} (params : List Text) (args : List Value) (outer : FrameId) :
    T s.frames.size (s.push ⟨.ofArguments params args, some outer⟩).2 s' → T e s s'

section Nodes

variable {T : FrameId → Store → Store → Prop} (allowed : Allowed T)
  {eval : Node → FrameId → Eval Value} (parts : ∀ n e, Moves (T e) (eval n e))
include allowed parts

theorem moves_apply (e : FrameId) (f : Closure) (args : List Value) :
    Moves (T e) (apply eval f args) := by
  intro s
  have := allowed.preorder
  unfold after apply
  simp only [bind, EStateM.bind, bindParams_run]
  by_cases count : args.length = f.params.length
  · rw [if_pos count]
    have body := (Moves.block fun n (_ : n ∈ f.body) => parts n s.frames.size).bind
      fun v => .pure v.unwrap
    exact allowed.call e f.params args f.env (body _)
  · rw [if_neg count]
    exact refl_of (T e) s

theorem moves_call (e : FrameId) (callee : Value) (args : List Value) :
    Moves (T e) (call eval callee args) := by
  have := allowed.preorder
  cases callee with
  | function f => exact moves_apply allowed parts e f args
  | _ => exact Moves.pure _

theorem moves_step (n : Node) (e : FrameId) : Moves (T e) (step eval n e) := by
  have := allowed.preorder
  cases n with
  | program body => exact (Moves.block fun n _ => parts n e).bind fun _ => .pure _
  | block body => exact .block fun n _ => parts n e
  | letStmt name value =>
    refine (parts value e).onValue fun v => ?_
    exact Moves.bind (fun s => allowed.define s e name v) fun _ => .pure _
  | returnStmt value => exact (parts value e).onValue fun _ => .pure _
  | exprStmt expr => exact parts expr e
  | ident name => exact fun s => refl_of (T e) s
  | int value => exact .pure _
  | bool value => exact .pure _
  | unary operator operand => exact (parts operand e).onValue fun _ => .pure _
  | binary operator left right =>
    exact (parts left e).onValue fun l => (parts right e).onValue fun r =>
      .binary operator left right l r
  | ifThen condition consequence =>
    refine (parts condition e).onValue fun v => ?_
    by_cases truthy : v.isTruthy = true
    · simp only [if_pos truthy]
      exact .block fun n _ => parts n e
    · simp only [if_neg truthy]
      exact .pure _
  | ifElse condition consequence alternative =>
    exact (parts condition e).onValue fun v => .block fun n _ => parts n e
  | fnLit params body => exact fun s => allowed.stamp s e
  | call callee args =>
    refine (parts callee e).onValue fun f => ?_
    exact .arguments (fun n _ => parts n e) (moves_call allowed parts e f)
  | unknown kind => exact .fail _

end Nodes

theorem moves_node {T : FrameId → Store → Store → Prop} (allowed : Allowed T) (depth : Nat)
    (n : Node) (e : FrameId) : Moves (T e) (node depth n e) := by
  have := allowed.preorder
  induction depth generalizing n e with
  | zero => exact .fail _
  | succ depth ih => exact moves_step allowed ih n e

theorem allowed_keptBut : Allowed Store.KeptBut where
  preorder _ := inferInstance
  define := Store.keptBut_define
  stamp _ _ _ f found := ⟨f, found, rfl, fun _ => rfl⟩
  call e s s' params args outer body := by
    -- The body writes to the frame of the call only, and that frame was not there before.
    have pushed := (s.keptIn_push ⟨.ofArguments params args, some outer⟩).keptBut s.frames.size
    have fresh : s.frame? s.frames.size = none := Array.getElem?_eq_none (Nat.le_refl _)
    exact ((trans_of _ pushed body).keptIn fresh).keptBut e

theorem keptBut_node (depth : Nat) (n : Node) (e : FrameId) :
    Moves (Store.KeptBut e) (node depth n e) := moves_node allowed_keptBut depth n e

/-- A call has a frame of its own to write to. -/
theorem keptIn_apply {eval : Node → FrameId → Eval Value}
    (parts : ∀ n e, Moves (Store.KeptBut e) (eval n e)) (f : Closure) (args : List Value) :
    Moves Store.KeptIn (apply eval f args) := by
  intro s
  have fresh : s.frame? s.frames.size = none := Array.getElem?_eq_none (Nat.le_refl _)
  exact (moves_apply allowed_keptBut parts s.frames.size f args s).keptIn fresh

end Eval

/-- Evaluation in a frame keeps every frame but that one, and where each frame is nested; a call
keeps every frame whole, whether it gives a value or fails. -/
theorem eval_keeps_other_frames (depth : Nat) (s : Store) :
    (∀ n e, s.KeptBut e ((Eval.node depth n e).after s)) ∧
    ∀ f args, s.KeptIn ((applyFunction depth f args).after s) :=
  ⟨fun n e => Eval.keptBut_node depth n e s,
    fun f args => Eval.keptIn_apply (Eval.keptBut_node depth) f args s⟩

end Monkey
