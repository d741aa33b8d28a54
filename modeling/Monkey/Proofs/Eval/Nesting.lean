import Monkey.Proofs.Eval.Operation
import Monkey.Proofs.Eval.Sequencing

/-! How frames are nested. Whatever operations a store has been through, each of its frames is
nested in an earlier one for good, binds each name once and holds only functions whose frames are
there; the frame of a call is nested in the frame of its function. So looking outwards goes through
ever earlier frames and comes to an end. -/
namespace Monkey

namespace Bindings

theorem nodup_insert {bs : Bindings} (distinct : bs.names.Nodup) (name : Text) (v : Value) :
    (bs.insert name v).names.Nodup := by
  rw [names_insert]
  split
  · exact distinct
  next free =>
    refine List.nodup_append.mpr ⟨distinct, List.pairwise_singleton _ name, ?_⟩
    intro a bound b last
    rw [List.mem_singleton.mp last]
    rintro rfl
    exact free bound

theorem nodup_foldl {pairs : List (Text × Value)} {bs : Bindings} (distinct : bs.names.Nodup) :
    (pairs.foldl (fun bs b => bs.insert b.1 b.2) bs).names.Nodup := by
  induction pairs generalizing bs with
  | nil => exact distinct
  | cons p pairs ih => exact ih (nodup_insert distinct p.1 p.2)

/-- A parameter that is named twice is bound once. -/
theorem nodup_ofArguments (params : List Text) (args : List Value) :
    (ofArguments params args).names.Nodup := nodup_foldl List.nodup_nil

end Bindings

namespace Store

/-- No frame binds a name twice. -/
def Tidy (s : Store) : Prop := ∀ e f, s.frame? e = some f → f.bindings.names.Nodup

/-- Every frame stays nested where it is. -/
def KeptOuter (s s' : Store) : Prop :=
  ∀ e f, s.frame? e = some f → ∃ g, s'.frame? e = some g ∧ g.outer = f.outer

/-- Frames stay nested where they are, and their names stay distinct. -/
def Orderly (s s' : Store) : Prop := s.KeptOuter s' ∧ (s.Tidy → s'.Tidy)

instance : IsPreorder Store Orderly where
  refl _ := ⟨fun _ f found => ⟨f, found, rfl⟩, id⟩
  trans _ _ _ first second := by
    refine ⟨fun e f found => ?_, second.2 ∘ first.2⟩
    obtain ⟨g, found, outer⟩ := first.1 e f found
    obtain ⟨h, found, outer'⟩ := second.1 e g found
    exact ⟨h, found, outer'.trans outer⟩

variable {s : Store}

theorem orderly_push {f : Frame} (distinct : f.bindings.names.Nodup) :
    s.Orderly (s.push f).2 := by
  refine ⟨fun e g found => ⟨g, s.keptIn_push f e g found, rfl⟩, fun tidy e g found => ?_⟩
  rw [frame?_push] at found
  split at found
  · cases found
    exact distinct
  · exact tidy e g found

theorem orderly_define (s : Store) (e : FrameId) (name : Text) (v : Value) :
    s.Orderly (s.define e name v) := by
  refine ⟨fun d f found => ?_, fun tidy d g found => ?_⟩
  · obtain ⟨g, found, outer, -⟩ := s.keptBut_define e name v d f found
    exact ⟨g, found, outer⟩
  rw [frame?_define] at found
  split at found
  · obtain ⟨f, before, rfl⟩ := Option.map_eq_some_iff.mp found
    exact Bindings.nodup_insert (tidy d f before) name v
  · exact tidy d g found

/-- Looking outwards from the frame goes along the path, to a frame that is nested in none. -/
inductive Outward (s : Store) : FrameId → List FrameId → Prop where
  | last : s.outer? e = none → Outward s e [e]
  | next : s.outer? e = some o → Outward s o path → Outward s e (e :: path)

/-- Frames are nested in earlier ones. -/
def Layered (s : Store) : Prop := ∀ e o, s.outer? e = some o → o < e

theorem Scoped.layered (sound : s.Scoped) : s.Layered := by
  intro e o outer
  obtain ⟨f, found, outer⟩ := Option.bind_eq_some_iff.mp outer
  exact (sound e f found).1 o outer

theorem Layered.outward_chainFrom (layered : s.Layered) {fuel : Nat} (enough : e < fuel) :
    s.Outward e (s.chainFrom fuel e) := by
  induction fuel generalizing e with
  | zero => omega
  | succ fuel ih =>
    unfold chainFrom
    cases outer : s.outer? e with
    | none => exact .last outer
    | some o =>
      have below := layered e o outer
      exact .next outer (ih (Nat.lt_of_lt_of_le below (Nat.lt_succ_iff.mp enough)))

theorem Outward.descends {path : List FrameId} (outward : s.Outward e path)
    (layered : s.Layered) : path.Pairwise (· > ·) ∧ ∀ d ∈ path, d ≤ e := by
  induction outward with
  | last => simp
  | next outer _ ih =>
    obtain ⟨falls, below⟩ := ih
    have less := layered _ _ outer
    refine ⟨List.pairwise_cons.mpr ⟨fun d member => ?_, falls⟩, ?_⟩
    · exact Nat.lt_of_le_of_lt (below d member) less
    · refine List.forall_mem_cons.mpr ⟨Nat.le_refl _, fun d member => ?_⟩
      exact Nat.le_of_lt (Nat.lt_of_le_of_lt (below d member) less)

end Store

namespace Eval

theorem allowed_orderly : Allowed fun _ => Store.Orderly where
  preorder _ := inferInstance
  define := Store.orderly_define
  stamp _ _ := ⟨fun _ f found => ⟨f, found, rfl⟩, id⟩
  call _ _ _ params args _ body :=
    trans_of _ (Store.orderly_push (Bindings.nodup_ofArguments params args)) body

theorem orderly_apply (depth : Nat) (f : Closure) (args : List Value) :
    Moves Store.Orderly (applyFunction depth f args) :=
  moves_apply allowed_orderly (moves_node allowed_orderly depth) 0 f args

theorem orderly_extend (params : List Text) (args : List Value) (outer : FrameId) :
    Moves Store.Orderly (extend params args outer) := by
  intro s
  rw [after_extend, after, bindParams_run]
  by_cases count : args.length = params.length
  · rw [if_pos count]
    exact Store.orderly_push (Bindings.nodup_ofArguments params args)
  · rw [if_neg count]
    exact refl_of Store.Orderly s

/-- The nodes give plain values one after another. -/
inductive Values (eval : Node → Eval Value) : List Node → Store → List Value → Store → Prop where
  | nil : Values eval [] s [] s
  | cons : eval n s = .ok v s' → v.isReturning = false → Values eval ns s' vs t →
      Values eval (n :: ns) s (v :: vs) t

theorem Values.arguments (values : Values eval ns s vs t) (next : List Value → Eval Value) :
    Eval.arguments eval next ns s = next vs t := by
  induction values generalizing next with
  | nil => rfl
  | cons run plain _ ih =>
    rw [Eval.arguments, onValue_run run plain]
    exact ih _

/-- A call node calls the function that its callee gives with the values of its arguments. -/
theorem Values.call (values : Values (node depth · e) (callee :: args) s (.function f :: vs) t) :
    node (depth + 1) (.call callee args) e s = applyFunction depth f vs t := by
  cases values with
  | cons run plain values =>
    rw [node, step, onValue_run run plain, values.arguments]
    rfl

/-- The frame of a call is the next one, inside the frame that the function was made in. -/
theorem frame_of_call (depth : Nat) (f : Closure) (args : List Value) (s : Store)
    (count : args.length = f.params.length) :
    ∃ g, ((applyFunction depth f args).after s).frame? s.frames.size = some g ∧
      g.outer = some f.env := by
  have body : Moves Store.Orderly (do
      return (← block (node depth · s.frames.size) f.body).unwrap) :=
    (Moves.block fun m _ => moves_node allowed_orderly depth m s.frames.size).bind fun _ => .pure _
  have made := s.frame?_push ⟨.ofArguments f.params args, some f.env⟩ s.frames.size
  rw [if_pos rfl] at made
  unfold after applyFunction apply
  simp only [bind, EStateM.bind, bindParams_run, if_pos count]
  exact (body _).1 _ _ made

end Eval

namespace Store

namespace Operation

theorem orderly_run (op : Operation) : Eval.Moves Orderly op.run := by
  cases op with
  | newFrame outer => exact .bind (fun _ => orderly_push List.nodup_nil) fun _ => .pure _
  | define e name v => exact .bind (fun s => s.orderly_define e name v) fun _ => .pure _
  | extend params args outer => exact (Eval.orderly_extend params args outer).bind fun _ => .pure _
  | bindParams params args outer =>
    refine Eval.Moves.bind (fun s => ?_) fun _ => .pure _
    rw [← Eval.after_extend]
    exact Eval.orderly_extend params args outer s
  | evaluate depth n e =>
    refine Eval.Moves.bind ?_ fun _ => .pure _
    exact (Eval.moves_node Eval.allowed_orderly depth n e).bind fun _ => .pure _
  | apply depth f args => exact (Eval.orderly_apply depth f args).bind fun _ => .pure _

end Operation

/-- The stores that operations lead to, failing ones included. -/
inductive Runs (s : Store) : Store → Prop where
  | refl : Runs s s
  | step (op : Operation) : Runs s t → op.Refers t.frames.size → Runs s (op.run.after t)

theorem Runs.orderly (runs : Runs s t) : s.Orderly t := by
  induction runs with
  | refl => exact refl_of Orderly s
  | step op _ _ ih => exact trans_of _ ih (op.orderly_run _)

theorem Runs.scoped (runs : Runs s t) (sound : s.Scoped) : t.Scoped := by
  induction runs with
  | refl => exact sound
  | step op _ refers ih => exact (Operation.respects_run refers.admitted).after ih

/-- Frames are nested in earlier ones, bind each name once and hold functions whose frames are
there; and looking outwards from a frame comes to an end, past each frame once. -/
structure WellNested (s : Store) : Prop where
  earlier (e : FrameId) (f : Frame) : s.frame? e = some f → ∀ o, f.outer = some o → o < e
  distinct (e : FrameId) (f : Frame) : s.frame? e = some f → f.bindings.names.Nodup
  captured (e : FrameId) (f : Frame) : s.frame? e = some f →
    ∀ b ∈ f.bindings, b.2.Within s.frames.size
  ending (e : FrameId) : e < s.frames.size → ∃ path, s.Outward e path ∧ path.Nodup ∧
    (∀ d ∈ path, d < s.frames.size) ∧
    ∀ name, s.lookup e name = path.findSome? fun d => (s.bindings d).get? name

theorem Scoped.wellNested {s : Store} (sound : s.Scoped) (tidy : s.Tidy) : s.WellNested where
  earlier e f found := (sound e f found).1
  distinct := tidy
  captured e f found := (sound e f found).2
  ending e inside := by
    have outward := sound.layered.outward_chainFrom (Nat.lt_succ_self e)
    obtain ⟨falls, below⟩ := outward.descends sound.layered
    refine ⟨s.chain e, outward, falls.imp Nat.ne_of_gt, fun d member => ?_, fun _ => rfl⟩
    exact Nat.lt_of_le_of_lt (below d member) inside

end Store

/-- From no frames on, operations lead to well-nested stores only; no frame is ever nested anew, and
what an operation gives refers to a frame. In any store, also in the middle of an evaluation, the
frame of a call is nested in the frame of its function, wherever the call stands. -/
theorem operations_keep_nesting {s : Store} (runs : Store.empty.Runs s) :
    s.WellNested ∧
    (∀ t, s.Runs t → s.KeptOuter t) ∧
    (∀ op : Store.Operation, op.Refers s.frames.size →
      ∀ v t, op.run s = .ok (some v) t → v.Within t.frames.size) ∧
    ∀ (t : Store) (depth : Nat),
      (∀ n e, t.KeptOuter ((Eval.node depth n e).after t)) ∧
      (∀ f args, args.length = f.params.length →
        ∃ g, ((applyFunction depth f args).after t).frame? t.frames.size = some g ∧
          g.outer = some f.env) ∧
      ∀ e callee args f vs u,
        Eval.Values (Eval.node depth · e) (callee :: args) t (.function f :: vs) u →
        vs.length = f.params.length →
        ∃ g, ((Eval.node (depth + 1) (.call callee args) e).after t).frame? u.frames.size = some g ∧
          g.outer = some f.env := by
  have sound : s.Scoped := runs.scoped Store.holds_empty
  have tidy : s.Tidy := runs.orderly.2 nofun
  refine ⟨sound.wellNested tidy, fun t further => further.orderly.1, ?_,
    fun t depth => ⟨?_, ?_, ?_⟩⟩
  · intro op refers v t run
    have stays := Store.Operation.respects_run refers.admitted s (Nat.le_refl _) sound
    rw [run] at stays
    exact stays.2.2 v rfl
  · exact fun n e => (Eval.moves_node Eval.allowed_orderly depth n e t).1
  · exact fun f args count => Eval.frame_of_call depth f args t count
  · intro e callee args f vs u values count
    rw [Eval.after, values.call]
    exact Eval.frame_of_call depth f vs u count

/-- `let twice = fn(a, a) { fn() { a } }; twice(1, 2)` -/
def sharedName : Node :=
  .program [.letStmt (utf16 "twice") (.fnLit [utf16 "a", utf16 "a"]
      [.exprStmt (.fnLit [] [.exprStmt (.ident (utf16 "a"))])]),
    .exprStmt (.call (.ident (utf16 "twice")) [.int 1, .int 2])]

/-- An outermost frame and the frame of a call. -/
def sharedNameStore : Store :=
  (Store.Operation.run (.evaluate 6 sharedName 0)).after
    ((Store.Operation.run (.newFrame none)).after .empty)

theorem operations_keep_nesting_sharedName : Store.empty.Runs sharedNameStore ∧
    sharedNameStore.frames.size = 2 ∧ sharedNameStore.WellNested := by
  have runs : Store.empty.Runs sharedNameStore :=
    .step _ (.step _ .refl nofun) (show 0 < 1 by decide)
  exact ⟨runs, by decide, (operations_keep_nesting runs).1⟩

end Monkey
