import Monkey.Proofs.Eval.Transparency
import Monkey.Session
import Monkey.Value.Printer

/-! Sessions side by side. Sessions are alike when they have the same settings, their global
frames are a pair, and their stores are alike as far as these frames reach; what else is in the
stores does not show. Like sessions show the same bindings, and every operation on them shows the
same and leaves them alike. A session that was given a new global frame is like every other such
session, whatever was evaluated before. -/
namespace Monkey

section Display

/-- The name under which a failure is reported. -/
def Failure.name : Failure → Text
  | rejected _ => utf16 "ParserError"
  | unreadable _ => utf16 "SyntaxError"
  | unmatchedNames _ _ => utf16 "EnvError"
  | unknownCommand _ => utf16 "Error"
  | tooDeep => utf16 "RangeError"
  | _ => utf16 "EvaluationError"

/-- What is seen of a failure. -/
structure Report where
  name : Text
  message : Text
  diagnostics : List Diagnostic

def Failure.report : Failure → Report
  | rejected diagnostics => ⟨(rejected diagnostics).name, (rejected diagnostics).message, diagnostics⟩
  | f => ⟨f.name, f.message, []⟩

/-- A text, or what is reported in its place. -/
def shown (text : Except Failure Text) : Except Report Text := text.mapError Failure.report

/-- Names in their order with what is shown of their values. -/
def Bindings.shown (bs : Bindings) : List (Text × Except Report Text) :=
  bs.map fun b => (b.1, Monkey.shown b.2.print)

theorem Failure.Alike.report (alike : Failure.Alike f g) : f.report = g.report := by
  cases alike with
  | divisionByZero => rfl
  | argumentCount params args =>
    simp only [Failure.report, Failure.name, Failure.message, params, args]
  | same f => rfl

variable {P : Pairing sameNames}

theorem Value.Alike.print (alike : Value.Alike sameNames P v w) : v.print = w.print := by
  induction alike with
  | @function _ f g _ params body =>
    have names : f.params = g.params := Node.forall₂_eq (fun _ _ => id) params
    have code : f.body = g.body := Node.alike_eqIn (fun _ _ => id) body
    simp only [Value.print, Closure.print, names, code]
  | returning _ ih => exact ih
  | _ => rfl

theorem Bindings.Alike.shown {bs cs : Bindings}
    (alike : Bindings.Alike Eq (Value.Alike sameNames P) bs cs) : bs.shown = cs.shown := by
  induction alike with
  | nil => rfl
  | both name value _ ih =>
    simp only [Bindings.shown, List.map_cons, name, value.print] at ih ⊢
    rw [ih]
  | left free => exact absurd rfl (free _)
  | right free => exact absurd rfl (free _)

end Display

theorem map_eq_of_rel {R : α → β → Prop} (related : Option.Rel R x y)
    (same : ∀ a b, R a b → f a = g b) : x.map f = y.map g := by
  cases related with
  | none => rfl
  | some related => exact congrArg some (same _ _ related)

namespace Session

/-- Sessions with the depth and the entries whose global frames are a pair in like stores. -/
inductive Alike (depth : Nat) (entries : List Text) : Session → Session → Prop where
  | intro (P : Pairing sameNames) {old new : Store} {e e' : FrameId} :
      Store.Alike sameNames P old new → P e e' () →
      Alike depth entries ⟨depth, entries, old, e⟩ ⟨depth, entries, new, e'⟩

/-- Both operations give results that `Q` relates, or both fail with one report, and the sessions
they leave are alike. -/
inductive EndAlike (depth : Nat) (entries : List Text) (Q : α → β → Prop) :
    EStateM.Result Failure Session α → EStateM.Result Failure Session β → Prop where
  | ok : Alike depth entries s t → Q a b → EndAlike depth entries Q (.ok a s) (.ok b t)
  | error : Alike depth entries s t → f.report = g.report →
      EndAlike depth entries Q (.error f s) (.error g t)

/-- On like sessions the two operations end alike. -/
def Mirrors (depth : Nat) (entries : List Text) (m : SessionM α) (m' : SessionM β)
    (Q : α → β → Prop) : Prop :=
  ∀ s t, Alike depth entries s t → EndAlike depth entries Q (m s) (m' t)

variable {depth : Nat} {entries : List Text}

theorem Alike.bindings (alike : Alike depth entries s t) :
    s.bindings.shown = t.bindings.shown := by
  obtain ⟨P, stores, env⟩ := alike
  obtain ⟨f, g, found, found', frames⟩ := stores.frames env
  simp only [Session.bindings, Store.bindings_of_frame? found, Store.bindings_of_frame? found']
  exact frames.bindings.shown

theorem Alike.lookup (alike : Alike depth entries s t) (name : Text) :
    (s.lookup name).map (shown ·.print) = (t.lookup name).map (shown ·.print) := by
  obtain ⟨P, stores, env⟩ := alike
  have found := stores.lookup env (rfl : sameNames.naming () name name)
  exact map_eq_of_rel found fun v w value => congrArg shown value.print

namespace Mirrors

theorem pure {Q : α → β → Prop} (related : Q a b) :
    Mirrors depth entries (pure a) (pure b) Q := fun _ _ alike => .ok alike related

theorem fail {Q : α → β → Prop} (f : Failure) :
    Mirrors depth entries (throw f) (throw f) Q := fun _ _ alike => .error alike rfl

theorem bind {m : SessionM α} {m' : SessionM α'} {q : α → SessionM β} {q' : α' → SessionM β'}
    {Q : α → α' → Prop} {R : β → β' → Prop} (first : Mirrors depth entries m m' Q)
    (next : ∀ a b, Q a b → Mirrors depth entries (q a) (q' b) R) :
    Mirrors depth entries (m >>= q) (m' >>= q') R := by
  intro s t alike
  have ends := first s t alike
  simp only [Bind.bind, EStateM.bind]
  generalize m s = x at ends ⊢
  generalize m' t = y at ends ⊢
  cases ends with
  | ok alike related => exact next _ _ related _ _ alike
  | error alike report => exact .error alike report

end Mirrors

theorem mirrors_lift {m : Eval Value} {m' : Eval Value}
    (runs : Eval.EndAlike P (Value.Alike sameNames) (m old) (m' new)) (env : P e e' ()) :
    EndAlike depth entries (fun v w => v.print = w.print)
      (lift m ⟨depth, entries, old, e⟩) (lift m' ⟨depth, entries, new, e'⟩) := by
  unfold lift
  dsimp only
  generalize m old = x at runs ⊢
  generalize m' new = y at runs ⊢
  cases x with
  | ok v s =>
    cases y with
    | ok w t =>
      obtain ⟨P', more, stores, value⟩ := runs
      exact .ok ⟨P', stores, more _ _ _ env⟩ value.print
    | error g t => exact runs.elim
  | error f s =>
    cases y with
    | ok w t => exact runs.elim
    | error g t =>
      obtain ⟨P', more, stores, failures⟩ := runs
      exact .error ⟨P', stores, more _ _ _ env⟩ failures.report

theorem mirrors_evaluateProgram (body : List Node) :
    Mirrors depth entries (evaluateProgram body) (evaluateProgram body)
      fun v w => v.print = w.print := by
  rintro _ _ ⟨P, stores, env⟩
  have code : List.Forall₂ (Node.Alike (sameNames.naming ())) body body :=
    Node.alike_self body fun _ _ => rfl
  have parts := Eval.mirrors_body (Eval.mirrors_node depth) env code
  exact mirrors_lift ((Eval.Mirrors.block parts).unwrapped P (le_refl P) _ _ stores) env

theorem mirrors_evaluate (source : Text) :
    Mirrors depth entries (evaluate source) (evaluate source) fun v w => v.print = w.print := by
  unfold evaluate
  cases parseClean source with
  | ok p => exact mirrors_evaluateProgram p.statements
  | error f => exact .fail f

theorem mirrors_load (sources : List Text) :
    Mirrors depth entries (load sources) (load sources) fun _ _ => True := by
  induction sources with
  | nil => exact .pure trivial
  | cons source sources ih => exact (mirrors_evaluate source).bind fun _ _ _ => ih

/-- The session with a new global frame. -/
def renewed (s : Session) : Session :=
  { s with store := (s.store.alloc none).2, env := (s.store.alloc none).1 }

theorem reset_eq_load (s : Session) : reset s = load s.entries s.renewed := rfl

/-- New global frames are a pair in any two stores, since nothing else has to be. -/
theorem alike_renewed (depth : Nat) (entries : List Text) (old new : Store) (e e' : FrameId) :
    Alike depth entries (renewed ⟨depth, entries, old, e⟩) (renewed ⟨depth, entries, new, e'⟩) := by
  have nothing : Store.Alike sameNames (fun _ _ _ => False) old new :=
    ⟨False.elim, fun pair _ => pair.elim, fun pair _ => pair.elim⟩
  have frames : Frame.Alike sameNames (fun _ _ _ => False) () old.frames.size new.frames.size
      ⟨[], none⟩ ⟨[], none⟩ := ⟨.nil, .none⟩
  exact ⟨_, nothing.push frames, .inr ⟨rfl, rfl, rfl⟩⟩

theorem mirrors_reset : Mirrors depth entries reset reset fun _ _ => True := by
  rintro _ _ ⟨P, -, -⟩
  rw [reset_eq_load, reset_eq_load]
  exact mirrors_load entries _ _ (alike_renewed _ _ _ _ _ _)

/-- Starting a session is loading its entries after a new global frame was made. -/
theorem load_of_create (created : create depth entries = .ok fresh) :
    load entries (renewed ⟨depth, entries, .empty, 0⟩) = .ok () fresh := by
  change load entries (blank depth entries) = .ok () fresh
  unfold create at created
  cases run : load entries (blank depth entries) with
  | ok _ s =>
    rw [run] at created
    cases created
    rfl
  | error f s =>
    rw [run] at created
    cases created

/-- A session that has just started is like itself: all it can see are frames of its own. -/
theorem alike_of_create (created : create depth entries = .ok fresh) :
    Alike depth entries fresh fresh := by
  have ends := mirrors_load entries _ _ (alike_renewed depth entries .empty .empty 0 0)
  rw [load_of_create created] at ends
  cases ends with
  | ok alike => exact alike

/-- A session that could start can be reset, and is then like a new one. -/
theorem reset_of_create (created : create depth entries = .ok fresh)
    (alike : Alike depth entries s t) :
    ∃ s', reset s = .ok () s' ∧ Alike depth entries s' fresh := by
  obtain @⟨P, old, new, e, e', -, -⟩ := alike
  have ends := mirrors_load entries _ _ (alike_renewed depth entries old .empty e 0)
  rw [load_of_create created] at ends
  rw [reset_eq_load]
  generalize load entries (renewed ⟨depth, entries, old, e⟩) = result at ends ⊢
  cases ends with
  | ok alike => exact ⟨_, rfl, alike⟩

end Session
end Monkey
