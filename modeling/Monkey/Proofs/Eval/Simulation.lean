import Mathlib.Order.Basic
import Monkey.Proofs.Eval.Footprint
import Monkey.Proofs.Node.Renaming

/-! Evaluations side by side. Some frames of one store stand for frames of another; each such
pair has a kind, and the kind says which names stand for which. Values are alike when their
functions have like code in paired frames, and stores are alike when paired frames bind like
values to like names and are nested in paired frames. Evaluating like code in paired frames
keeps all that: it ends in the same way, at the same depth, with more frames paired. -/
namespace Monkey

/-- No two names stand for one name. -/
def Naming.OneToOne (N : Naming) : Prop := ∀ {a b c d}, N a b → N c d → (a = c ↔ b = d)

/-- Kinds of frames with their namings. -/
structure Vocabulary where
  kind : Type
  naming : kind → Naming
  oneToOne : ∀ i, (naming i).OneToOne

/-- Which frame stands for which, and of what kind the two are. -/
abbrev Pairing (W : Vocabulary) := FrameId → FrameId → W.kind → Prop

/-- One more pair of frames. -/
def Pairing.add (P : Pairing W) (e e' : FrameId) (i : W.kind) : Pairing W :=
  fun d d' j => P d d' j ∨ d = e ∧ d' = e' ∧ j = i

theorem Pairing.le_add (P : Pairing W) (e e' : FrameId) (i : W.kind) : P ≤ P.add e e' i :=
  fun _ _ _ => Or.inl

section Likeness

/-- Functions are alike when they have like code and were made in paired frames. -/
inductive Value.Alike (W : Vocabulary) (P : Pairing W) : Value → Value → Prop where
  | int (k : Int) : Alike W P (.int k) (.int k)
  | bool (b : Bool) : Alike W P (.bool b) (.bool b)
  | null : Alike W P .null .null
  | function {f g : Closure} : P f.env g.env i →
      List.Forall₂ (W.naming i) f.params g.params →
      List.Forall₂ (Node.Alike (W.naming i)) f.body g.body →
      Alike W P (.function f) (.function g)
  | returning : Alike W P v w → Alike W P (.returning v) (.returning w)
  | unknown (kind : Text) : Alike W P (.unknown kind) (.unknown kind)

/-- Names that stand for each other are bound to values that `V` relates, in the same order.
Names that stand for nothing are passed over. -/
inductive Bindings.Alike (N : Naming) (V : Value → Value → Prop) : Bindings → Bindings → Prop where
  | nil : Alike N V [] []
  | both : N a b → V v w → Alike N V bs cs → Alike N V ((a, v) :: bs) ((b, w) :: cs)
  | left : (∀ b, ¬N a b) → Alike N V bs cs → Alike N V ((a, v) :: bs) cs
  | right : (∀ a, ¬N a b) → Alike N V bs cs → Alike N V bs ((b, w) :: cs)

/-- Names of kind `i` that the bindings leave open stand for each other in kind `j` as well. -/
def Vocabulary.Passes (W : Vocabulary) (i j : W.kind) (bs : Bindings) : Prop :=
  ∀ a b, W.naming i a b → bs.get? a = none → W.naming j a b

/-- The frames at `e` and `e'` bind like values and are nested in earlier paired frames. -/
structure Frame.Alike (W : Vocabulary) (P : Pairing W) (i : W.kind) (e e' : FrameId)
    (f g : Frame) : Prop where
  bindings : Bindings.Alike (W.naming i) (Value.Alike W P) f.bindings g.bindings
  outer : Option.Rel (fun o o' => o < e ∧ o' < e' ∧ ∃ j, P o o' j ∧ W.Passes i j f.bindings)
    f.outer g.outer

/-- Paired frames are alike, and no frame is in two pairs. -/
structure Store.Alike (W : Vocabulary) (P : Pairing W) (s t : Store) : Prop where
  frames : P e e' i → ∃ f g, s.frame? e = some f ∧ t.frame? e' = some g ∧
    Frame.Alike W P i e e' f g
  right : P e e' i → P e d' j → e' = d' ∧ i = j
  left : P e e' i → P d e' j → e = d

/-- Failures with one cause and one message. -/
inductive Failure.Alike : Failure → Failure → Prop where
  | divisionByZero : Alike (.divisionByZero n l r) (.divisionByZero n' l' r')
  | argumentCount : params.length = params'.length → args.length = args'.length →
      Alike (.argumentCount params args) (.argumentCount params' args')
  | same (f : Failure) : Alike f f

theorem rel_imp {R R' : α → β → Prop} (related : Option.Rel R x y)
    (imp : ∀ a b, R a b → R' a b) : Option.Rel R' x y := by
  cases related with
  | some related => exact .some (imp _ _ related)
  | none => exact .none

theorem rel_or {R : α → β → Prop} (first : Option.Rel R x y)
    (next : x = none → Option.Rel R x' y') : Option.Rel R (x.or x') (y.or y') := by
  cases first with
  | some related => exact .some related
  | none => exact next rfl

theorem rel_getD {R : α → β → Prop} (related : Option.Rel R x y) (default : R a b) :
    R (x.getD a) (y.getD b) := by
  cases related with
  | some related => exact related
  | none => exact default

variable {W : Vocabulary} {P P' : Pairing W}

theorem Value.Alike.mono (alike : Value.Alike W P v w) (le : P ≤ P') : Value.Alike W P' v w := by
  induction alike with
  | int k => exact .int k
  | bool b => exact .bool b
  | null => exact .null
  | function env params body => exact .function (le _ _ _ env) params body
  | returning _ ih => exact .returning ih
  | unknown kind => exact .unknown kind

theorem Value.Alike.of_computed (computed : Computed v) : Value.Alike W P v v := by
  cases computed with
  | int k => exact .int _
  | bool b => exact .bool b
  | null => exact .null

theorem Value.Alike.unwrap (alike : Value.Alike W P v w) :
    Value.Alike W P v.unwrap w.unwrap := by
  cases alike with
  | returning alike => exact alike
  | function env params body => exact .function env params body
  | _ => constructor

theorem Value.Alike.isTruthy (alike : Value.Alike W P v w) : v.isTruthy = w.isTruthy := by
  cases alike <;> rfl

theorem Value.Alike.asInt? (alike : Value.Alike W P v w) : v.asInt? = w.asInt? := by
  cases alike <;> rfl

theorem Value.Alike.applyUnary (alike : Value.Alike W P v w) (operator : Text) :
    applyUnary operator v = applyUnary operator w := by
  cases alike <;> rfl

theorem Value.Alike.applyBinary (first : Value.Alike W P l l') (second : Value.Alike W P r r')
    (operator : Text) : applyBinary operator l r = applyBinary operator l' r' := by
  unfold Monkey.applyBinary
  rw [first.asInt?, second.asInt?]

namespace Bindings.Alike

variable {N : Naming} {V V' : Value → Value → Prop} {bs cs : Bindings}

theorem mono (alike : Alike N V bs cs) (imp : ∀ v w, V v w → V' v w) : Alike N V' bs cs := by
  induction alike with
  | nil => exact .nil
  | both name value _ ih => exact .both name (imp _ _ value) ih
  | left free _ ih => exact .left free ih
  | right free _ ih => exact .right free ih

theorem get? (unique : N.OneToOne) (alike : Alike N V bs cs) (name : N a b) :
    Option.Rel V (bs.get? a) (cs.get? b) := by
  induction alike with
  | nil => exact .none
  | @both c d _ _ _ _ name' value _ ih =>
    unfold Bindings.get?
    by_cases here : c = a
    · rw [if_pos here, if_pos ((unique name' name).mp here)]
      exact .some value
    · rw [if_neg here, if_neg fun there => here ((unique name' name).mpr there)]
      exact ih
  | left free _ ih =>
    rw [Bindings.get?, if_neg]
    · exact ih
    · rintro rfl
      exact free b name
  | right free _ ih =>
    rw [Bindings.get?, if_neg]
    · exact ih
    · rintro rfl
      exact free a name

theorem insert (unique : N.OneToOne) (alike : Alike N V bs cs) (name : N a b) (value : V v w) :
    Alike N V (bs.insert a v) (cs.insert b w) := by
  induction alike with
  | nil => exact .both name value .nil
  | @both c d _ _ _ _ name' value' rest ih =>
    unfold Bindings.insert
    by_cases here : c = a
    · rw [if_pos here, if_pos ((unique name' name).mp here)]
      exact .both name value rest
    · rw [if_neg here, if_neg fun there => here ((unique name' name).mpr there)]
      exact .both name' value' ih
  | left free _ ih =>
    rw [Bindings.insert, if_neg]
    · exact .left free ih
    · rintro rfl
      exact free b name
  | right free _ ih =>
    rw [Bindings.insert, if_neg]
    · exact .right free ih
    · rintro rfl
      exact free a name

theorem ofArguments (unique : N.OneToOne) (params : List.Forall₂ N xs ys)
    (args : List.Forall₂ V vs ws) :
    Alike N V (Bindings.ofArguments xs vs) (Bindings.ofArguments ys ws) := by
  unfold Bindings.ofArguments
  suffices ∀ {bs cs}, Alike N V bs cs →
      Alike N V ((xs.zip vs).foldl (fun bs b => bs.insert b.1 b.2) bs)
        ((ys.zip ws).foldl (fun bs b => bs.insert b.1 b.2) cs) from this .nil
  induction params generalizing vs ws with
  | nil => exact id
  | cons name _ ih =>
    intro bs cs alike
    cases args with
    | nil => exact alike
    | cons value args => exact ih args (alike.insert unique name value)

end Bindings.Alike

theorem Frame.Alike.mono (alike : Frame.Alike W P i e e' f g) (le : P ≤ P') :
    Frame.Alike W P' i e e' f g := by
  refine ⟨alike.bindings.mono fun _ _ value => value.mono le, rel_imp alike.outer ?_⟩
  rintro o o' ⟨lower, lower', j, outside, passes⟩
  exact ⟨lower, lower', j, le _ _ _ outside, passes⟩

/-- What is open after a definition was open before, so the frame still passes on its names. -/
theorem Frame.Alike.insert {f g : Frame} (alike : Frame.Alike W P i e e' f g)
    (name : W.naming i a b) (value : Value.Alike W P v w) :
    Frame.Alike W P i e e' { f with bindings := f.bindings.insert a v }
      { g with bindings := g.bindings.insert b w } := by
  refine ⟨alike.bindings.insert (W.oneToOne i) name value, rel_imp alike.outer ?_⟩
  rintro o o' ⟨lower, lower', j, outside, passes⟩
  refine ⟨lower, lower', j, outside, fun c d named unbound => passes c d named ?_⟩
  rw [Bindings.get?_insert] at unbound
  split at unbound
  · cases unbound
  · exact unbound

theorem Failure.Alike.message (alike : Failure.Alike f g) : f.message = g.message := by
  cases alike with
  | divisionByZero => rfl
  | argumentCount params args => rw [Failure.message, Failure.message, params, args]
  | same f => rfl

theorem Failure.Alike.tooDeep_iff (alike : Failure.Alike f g) : f = .tooDeep ↔ g = .tooDeep := by
  cases alike with
  | same f => rfl
  | _ => simp

namespace Store.Alike

variable {s t : Store}

/-- Names that stand for each other have like values, seen from paired frames. -/
theorem lookup (alike : Store.Alike W P s t) (pair : P e e' i) (name : W.naming i a b) :
    Option.Rel (Value.Alike W P) (s.lookup e a) (t.lookup e' b) := by
  -- The chains take their lengths from the places of the frames, which may differ.
  suffices ∀ k k', e < k → e' < k' → Option.Rel (Value.Alike W P)
      ((s.chainFrom k e).findSome? fun f => (s.bindings f).get? a)
      ((t.chainFrom k' e').findSome? fun f => (t.bindings f).get? b) from
    this (e + 1) (e' + 1) (Nat.lt_succ_self e) (Nat.lt_succ_self e')
  intro k
  induction k generalizing e e' i with
  | zero => intro _ below; cases below
  | succ k ih =>
    intro k' below below'
    obtain _ | k' := k'
    · cases below'
    obtain ⟨⟨_, outer⟩, ⟨_, outer'⟩, found, found', frames⟩ := alike.frames pair
    have here := frames.bindings.get? (W.oneToOne i) name
    rw [findSome?_chainFrom, findSome?_chainFrom, bindings_of_frame? found,
      bindings_of_frame? found', outer?_of_frame? found, outer?_of_frame? found']
    refine rel_or here fun unbound => ?_
    cases frames.outer with
    | none => exact .none
    | some nested =>
      obtain ⟨lower, lower', j, outside, passes⟩ := nested
      refine ih outside (passes a b name unbound) k' ?_ ?_
      · exact Nat.lt_of_lt_of_le lower (Nat.le_of_lt_succ below)
      · exact Nat.lt_of_lt_of_le lower' (Nat.le_of_lt_succ below')

theorem define (alike : Store.Alike W P s t) (pair : P e e' i) (name : W.naming i a b)
    (value : Value.Alike W P v w) : Store.Alike W P (s.define e a v) (t.define e' b w) := by
  refine ⟨fun {d d' j} other => ?_, alike.right, alike.left⟩
  obtain ⟨f, g, found, found', frames⟩ := alike.frames other
  rw [frame?_define, frame?_define, found, found']
  by_cases here : e = d
  · obtain rfl := here
    obtain ⟨rfl, rfl⟩ := alike.right pair other
    exact ⟨_, _, if_pos rfl, if_pos rfl, frames.insert name value⟩
  · have there : e' ≠ d' := by
      rintro rfl
      exact here (alike.left pair other)
    exact ⟨f, g, if_neg here, if_neg there, frames⟩

theorem push (alike : Store.Alike W P s t)
    (frames : Frame.Alike W P i s.frames.size t.frames.size f g) :
    Store.Alike W (P.add s.frames.size t.frames.size i) (s.push f).2 (t.push g).2 := by
  -- A frame of an old pair is there already, so it is not the frame that is added.
  have old : ∀ {e e' j}, P e e' j → e ≠ s.frames.size ∧ e' ≠ t.frames.size := by
    intro e e' j pair
    obtain ⟨f, g, found, found', -⟩ := alike.frames pair
    exact ⟨Nat.ne_of_lt (frame?_lt found), Nat.ne_of_lt (frame?_lt found')⟩
  constructor
  · rintro e e' j (pair | ⟨rfl, rfl, rfl⟩)
    · obtain ⟨f', g', found, found', frames'⟩ := alike.frames pair
      rw [frame?_push, frame?_push, if_neg (old pair).1, if_neg (old pair).2]
      exact ⟨f', g', found, found', frames'.mono (P.le_add _ _ _)⟩
    · rw [frame?_push, frame?_push, if_pos rfl, if_pos rfl]
      exact ⟨f, g, rfl, rfl, frames.mono (P.le_add _ _ _)⟩
  · rintro e e' j d' k (pair | ⟨rfl, rfl, rfl⟩) (other | ⟨same, rfl, rfl⟩)
    · exact alike.right pair other
    · exact absurd same (old pair).1
    · exact absurd rfl (old other).1
    · exact ⟨rfl, rfl⟩
  · rintro e e' j d k (pair | ⟨rfl, rfl, rfl⟩) (other | ⟨rfl, same, rfl⟩)
    · exact alike.left pair other
    · exact absurd same (old pair).2
    · exact absurd rfl (old other).2
    · rfl

end Store.Alike
end Likeness

namespace Eval

variable {W : Vocabulary} {P P' : Pairing W}

/-- Both runs give results that `Q` relates, or both fail alike; the stores are alike, with the
pairs there were and perhaps more. -/
def EndAlike (P : Pairing W) (Q : Pairing W → α → β → Prop) :
    EStateM.Result Failure Store α → EStateM.Result Failure Store β → Prop
  | .ok a s, .ok b t => ∃ P', P ≤ P' ∧ Store.Alike W P' s t ∧ Q P' a b
  | .error f s, .error g t => ∃ P', P ≤ P' ∧ Store.Alike W P' s t ∧ Failure.Alike f g
  | _, _ => False

/-- From like stores in which at least the frames of `P` are paired, the two runs end alike. -/
def Mirrors (P : Pairing W) (m : Eval α) (m' : Eval β) (Q : Pairing W → α → β → Prop) : Prop :=
  ∀ P', P ≤ P' → ∀ s t, Store.Alike W P' s t → EndAlike P' Q (m s) (m' t)

theorem EndAlike.weaken {Q : Pairing W → α → β → Prop} (ends : EndAlike P' Q x y) (le : P ≤ P') :
    EndAlike P Q x y := by
  unfold EndAlike at ends ⊢
  split at ends
  next =>
    obtain ⟨P'', le', rest⟩ := ends
    exact ⟨P'', le.trans le', rest⟩
  next =>
    obtain ⟨P'', le', rest⟩ := ends
    exact ⟨P'', le.trans le', rest⟩
  next => exact ends

namespace Mirrors

theorem later {Q : Pairing W → α → β → Prop} (runs : Mirrors P m m' Q) (le : P ≤ P') :
    Mirrors P' m m' Q :=
  fun P'' le' => runs P'' (le.trans le')

theorem pure {Q : Pairing W → α → β → Prop} (related : ∀ P', P ≤ P' → Q P' a b) :
    Mirrors P (pure a) (pure b) Q :=
  fun P' le _ _ alike => ⟨P', le_refl P', alike, related P' le⟩

theorem fail {Q : Pairing W → α → β → Prop} (failures : Failure.Alike f g) :
    Mirrors P (throw f) (throw g) Q :=
  fun P' _ _ _ alike => ⟨P', le_refl P', alike, failures⟩

theorem bind {m : Eval α} {m' : Eval α'} {q : α → Eval β} {q' : α' → Eval β'}
    {Q : Pairing W → α → α' → Prop} {R : Pairing W → β → β' → Prop} (first : Mirrors P m m' Q)
    (next : ∀ P' a b, P ≤ P' → Q P' a b → Mirrors P' (q a) (q' b) R) :
    Mirrors P (m >>= q) (m' >>= q') R := by
  intro P₁ le s t alike
  have ends := first P₁ le s t alike
  simp only [Bind.bind, EStateM.bind]
  cases run : m s with
  | ok a s' =>
    cases run' : m' t with
    | ok b t' =>
      rw [run, run'] at ends
      obtain ⟨P₂, le', alike', related⟩ := ends
      have rest := next P₂ a b (le.trans le') related P₂ (le_refl P₂) s' t' alike'
      exact rest.weaken le'
    | error g t' =>
      rw [run, run'] at ends
      exact ends.elim
  | error f s' =>
    cases run' : m' t with
    | ok b t' =>
      rw [run, run'] at ends
      exact ends.elim
    | error g t' =>
      rw [run, run'] at ends
      exact ends

theorem onValue {next next' : Value → Eval Value} (first : Mirrors P m m' (Value.Alike W))
    (rest : ∀ P' v w, P ≤ P' → Value.Alike W P' v w →
      Mirrors P' (next v) (next' w) (Value.Alike W)) :
    Mirrors P (Eval.onValue m next) (Eval.onValue m' next') (Value.Alike W) := by
  refine first.bind fun P' v w le alike => ?_
  cases alike with
  | returning alike => exact pure fun _ le => .returning (alike.mono le)
  | int k => exact rest P' _ _ le (.int k)
  | bool b => exact rest P' _ _ le (.bool b)
  | null => exact rest P' _ _ le .null
  | function env params body => exact rest P' _ _ le (.function env params body)
  | unknown kind => exact rest P' _ _ le (.unknown kind)

theorem statements {eval eval' : Node → Eval Value}
    (parts : List.Forall₂ (fun n n' => Mirrors P (eval n) (eval' n') (Value.Alike W)) ns ns')
    (value : Value.Alike W P last last') :
    Mirrors P (Eval.statements eval last ns) (Eval.statements eval' last' ns')
      (Value.Alike W) := by
  induction ns generalizing P ns' last last' with
  | nil =>
    cases parts
    exact pure fun _ le => value.mono le
  | cons n ns ih =>
    cases parts with
    | cons first others =>
      exact first.onValue fun P' v w le value =>
        ih (others.imp fun _ _ runs => runs.later le) value

theorem block {eval eval' : Node → Eval Value}
    (parts : List.Forall₂ (fun n n' => Mirrors P (eval n) (eval' n') (Value.Alike W)) ns ns') :
    Mirrors P (Eval.block eval ns) (Eval.block eval' ns') (Value.Alike W) :=
  statements parts .null

theorem unwrapped (runs : Mirrors P m m' (Value.Alike W)) :
    Mirrors P (return (← m).unwrap) (return (← m').unwrap) (Value.Alike W) :=
  runs.bind fun _ _ _ _ alike => pure fun _ le => alike.unwrap.mono le

theorem arguments {eval eval' : Node → Eval Value}
    (parts : List.Forall₂ (fun n n' => Mirrors P (eval n) (eval' n') (Value.Alike W)) ns ns')
    {next next' : List Value → Eval Value}
    (rest : ∀ P' vs ws, P ≤ P' → List.Forall₂ (Value.Alike W P') vs ws →
      Mirrors P' (next vs) (next' ws) (Value.Alike W)) :
    Mirrors P (Eval.arguments eval next ns) (Eval.arguments eval' next' ns') (Value.Alike W) := by
  induction ns generalizing P ns' next next' with
  | nil =>
    cases parts
    exact rest P [] [] (le_refl P) .nil
  | cons n ns ih =>
    cases parts with
    | cons first others =>
      refine first.onValue fun P₁ v w le value =>
        ih (others.imp fun _ _ runs => runs.later le) fun P₂ vs ws le' values => ?_
      exact rest P₂ (v :: vs) (w :: ws) (le.trans le') (.cons (value.mono le') values)

end Mirrors

theorem mirrors_define (pair : P e e' i) (name : W.naming i a b) (value : Value.Alike W P v w) :
    Mirrors P (define e a v) (define e' b w) fun _ _ _ => True :=
  fun P' le _ _ alike =>
    ⟨P', le_refl P', alike.define (le _ _ _ pair) name (value.mono le), trivial⟩

theorem mirrors_readName (pair : P e e' i) (name : W.naming i a b) :
    Mirrors P (readName e a) (readName e' b) (Value.Alike W) := by
  intro P' le s t alike
  exact ⟨P', le_refl P', alike, rel_getD (alike.lookup (le _ _ _ pair) name) .null⟩

theorem mirrors_newFunction (pair : P e e' i) (params : List.Forall₂ (W.naming i) xs ys)
    (body : List.Forall₂ (Node.Alike (W.naming i)) ns ns') :
    Mirrors P (newFunction xs ns e) (newFunction ys ns' e') (Value.Alike W) :=
  fun P' le _ _ alike =>
    ⟨P', le_refl P', ⟨alike.frames, alike.right, alike.left⟩, .function (le _ _ _ pair) params body⟩

/-- The frames of two calls are a pair of kind `i` inside a pair of kind `j`. -/
theorem mirrors_bindParams (outside : P o o' j) (params : List.Forall₂ (W.naming i) xs ys)
    (args : List.Forall₂ (Value.Alike W P) vs ws)
    (passes : vs.length = xs.length → W.Passes i j (.ofArguments xs vs)) :
    Mirrors P (bindParams xs vs o) (bindParams ys ws o') fun P' e e' => P' e e' i := by
  intro P' le s t alike
  rw [bindParams_run, bindParams_run, ← args.length_eq, ← params.length_eq]
  by_cases count : vs.length = xs.length
  · rw [if_pos count, if_pos count]
    refine ⟨_, P'.le_add _ _ _, alike.push ⟨?_, ?_⟩, .inr ⟨rfl, rfl, rfl⟩⟩
    · exact .ofArguments (W.oneToOne i) params (args.imp fun _ _ value => value.mono le)
    · obtain ⟨f, g, found, found', -⟩ := alike.frames (le _ _ _ outside)
      exact .some ⟨Store.frame?_lt found, Store.frame?_lt found', j, le _ _ _ outside, passes count⟩
  · rw [if_neg count, if_neg count]
    exact ⟨P', le_refl P', alike, .argumentCount params.length_eq args.length_eq⟩

theorem mirrors_binary (operator : Text) (left right left' right' : Node)
    (first : Value.Alike W P l l') (second : Value.Alike W P r r') :
    Mirrors P (binary operator left right l r) (binary operator left' right' l' r')
      (Value.Alike W) := by
  unfold binary
  rw [← first.applyBinary second]
  cases result : applyBinary operator l r with
  | none => exact .fail .divisionByZero
  | some v => exact .pure fun _ _ => .of_computed (applyBinary_computed result)

section Nodes

variable {eval eval' : Node → FrameId → Eval Value}
  (parts : ∀ {P : Pairing W} {n n' e e' i}, P e e' i → Node.Alike (W.naming i) n n' →
    Mirrors P (eval n e) (eval' n' e') (Value.Alike W))
include parts

theorem mirrors_body (pair : P e e' i) (body : List.Forall₂ (Node.Alike (W.naming i)) ns ns') :
    List.Forall₂ (fun n n' => Mirrors P (eval n e) (eval' n' e') (Value.Alike W)) ns ns' :=
  body.imp fun _ _ alike => parts pair alike

theorem mirrors_apply {f g : Closure} (outside : P f.env g.env j)
    (params : List.Forall₂ (W.naming i) f.params g.params)
    (body : List.Forall₂ (Node.Alike (W.naming i)) f.body g.body)
    (args : List.Forall₂ (Value.Alike W P) vs ws)
    (passes : vs.length = f.params.length → W.Passes i j (.ofArguments f.params vs)) :
    Mirrors P (apply eval f vs) (apply eval' g ws) (Value.Alike W) := by
  refine (mirrors_bindParams outside params args passes).bind fun P' e e' _ pair => ?_
  exact (Mirrors.block (mirrors_body parts pair body)).unwrapped

theorem mirrors_call (callee : Value.Alike W P f g) (args : List.Forall₂ (Value.Alike W P) vs ws) :
    Mirrors P (call eval f vs) (call eval' g ws) (Value.Alike W) := by
  cases callee with
  | function env params body =>
    exact mirrors_apply parts env params body args fun _ _ _ name _ => name
  | _ => exact .pure fun _ _ => .null

theorem mirrors_step (pair : P e e' i) (alike : Node.Alike (W.naming i) n n') :
    Mirrors P (step eval n e) (step eval' n' e') (Value.Alike W) := by
  have there : ∀ {P'}, P ≤ P' → P' e e' i := fun le => le _ _ _ pair
  cases alike with
  | program body => exact (Mirrors.block (mirrors_body parts pair body)).unwrapped
  | block body => exact .block (mirrors_body parts pair body)
  | letStmt name value =>
    refine (parts pair value).onValue fun P' v w le value => ?_
    refine (mirrors_define (there le) name value).bind fun _ _ _ le _ => ?_
    exact .pure fun _ le' => value.mono (le.trans le')
  | returnStmt value =>
    refine (parts pair value).onValue fun P' v w _ value => ?_
    exact .pure fun _ le => .returning (value.mono le)
  | exprStmt expr => exact parts pair expr
  | ident name => exact mirrors_readName pair name
  | int k => exact .pure fun _ _ => .int k
  | bool b => exact .pure fun _ _ => .bool b
  | unary operator operand =>
    refine (parts pair operand).onValue fun P' v w _ value => ?_
    rw [← value.applyUnary operator]
    exact .pure fun _ _ => .of_computed (applyUnary_computed operator v)
  | binary operator left right =>
    refine (parts pair left).onValue fun P₁ l l' le first => ?_
    refine (parts (there le) right).onValue fun P₂ r r' le' second => ?_
    exact mirrors_binary operator _ _ _ _ (first.mono le') second
  | ifThen condition yes =>
    refine (parts pair condition).onValue fun P' v w le value => ?_
    rw [← value.isTruthy]
    by_cases truthy : v.isTruthy = true
    · simp only [if_pos truthy]
      exact .block (mirrors_body parts (there le) yes)
    · simp only [if_neg truthy]
      exact .pure fun _ _ => .null
  | ifElse condition yes no =>
    refine (parts pair condition).onValue fun P' v w le value => ?_
    rw [← value.isTruthy]
    by_cases truthy : v.isTruthy = true
    · simp only [if_pos truthy]
      exact .block (mirrors_body parts (there le) yes)
    · simp only [if_neg truthy]
      exact .block (mirrors_body parts (there le) no)
  | fnLit params body => exact mirrors_newFunction pair params body
  | call callee args =>
    refine (parts pair callee).onValue fun P₁ f g le callee => ?_
    refine .arguments (mirrors_body parts (there le) args) fun P₂ vs ws le' values => ?_
    exact mirrors_call parts (callee.mono le') values
  | unknown kind => exact .fail (.same _)

end Nodes

/-- Like code in paired frames runs alike. -/
theorem mirrors_node (depth : Nat) (pair : P e e' i) (alike : Node.Alike (W.naming i) n n') :
    Mirrors P (node depth n e) (node depth n' e') (Value.Alike W) := by
  induction depth generalizing P e e' i n n' with
  | zero => exact .fail (.same _)
  | succ depth ih => exact mirrors_step ih pair alike

end Eval
end Monkey
