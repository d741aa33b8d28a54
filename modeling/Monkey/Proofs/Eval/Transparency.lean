import Monkey.Proofs.Eval.Scope
import Monkey.Proofs.Eval.Simulation

/-! What shows of a run, and that it shows again. The outcome of a call is its value, with a
function seen as its parameters and its body, or the message of its failure. Calls change no
frame that was there, so a call that is made again has the same outcome. -/
namespace Monkey

section Outcomes

/-- The same integer, boolean or null, or functions that `F` relates. -/
def Value.Resembles (F : Closure → Closure → Prop) : Value → Value → Prop
  | int a, int b => a = b
  | bool a, bool b => a = b
  | null, null => True
  | function f, function g => F f g
  | returning v, returning w => v.Resembles F w
  | unknown k, unknown l => k = l
  | _, _ => False

/-- Both runs give values that resemble each other, or both fail with one message. Running out
of depth is told apart from every other failure. -/
def Eval.SameOutcome (F : Closure → Closure → Prop) :
    EStateM.Result Failure Store Value → EStateM.Result Failure Store Value → Prop
  | .ok v _, .ok w _ => v.Resembles F w
  | .error f _, .error g _ => f.message = g.message ∧ (f = .tooDeep ↔ g = .tooDeep)
  | _, _ => False

variable {W : Vocabulary} {F : Closure → Closure → Prop}

theorem Value.Alike.resembles (alike : Value.Alike W P v w)
    (functions : ∀ f g, Value.Alike W P (.function f) (.function g) → F f g) :
    v.Resembles F w := by
  induction alike with
  | int k => rfl
  | bool b => rfl
  | null => trivial
  | function env params body => exact functions _ _ (.function env params body)
  | returning _ ih => exact ih
  | unknown kind => rfl

theorem Eval.EndAlike.sameOutcome (ends : Eval.EndAlike P (Value.Alike W) x y)
    (functions : ∀ P' f g, Value.Alike W P' (.function f) (.function g) → F f g) :
    Eval.SameOutcome F x y := by
  cases x with
  | ok v s =>
    cases y with
    | ok w t =>
      obtain ⟨P', -, -, alike⟩ := ends
      exact alike.resembles (functions P')
    | error g t => exact ends
  | error f s =>
    cases y with
    | ok w t => exact ends
    | error g t =>
      obtain ⟨-, -, -, failures⟩ := ends
      exact ⟨failures.message, failures.tooDeep_iff⟩

end Outcomes

section Prefixes

variable {W : Vocabulary} {i : W.kind} (self : ∀ a, W.naming i a a)

/-- The first `n` frames stand for themselves. -/
def Pairing.upTo (n : Nat) (i : W.kind) : Pairing W := fun e e' j => e = e' ∧ e < n ∧ j = i

include self

theorem Value.Within.alike (within : Value.Within n v) :
    Value.Alike W (.upTo n i) v v := by
  induction v with
  | int k => exact .int k
  | bool b => exact .bool b
  | null => exact .null
  | function f =>
    refine .function ⟨rfl, within, rfl⟩ ?_ (Node.alike_self f.body fun a _ => self a)
    exact List.forall₂_same.mpr fun a _ => self a
  | returning v ih => exact .returning (ih within)
  | unknown kind => exact .unknown kind

theorem Bindings.alike_self {bs : Bindings} (values : ∀ b ∈ bs, V b.2 b.2) :
    Bindings.Alike (W.naming i) V bs bs := by
  induction bs with
  | nil => exact .nil
  | cons b bs ih =>
    obtain ⟨first, others⟩ := List.forall_mem_cons.mp values
    exact .both (self b.1) first (ih others)

/-- A store is like every store that has its frames. -/
theorem Store.Scoped.alike {s t : Store} (sound : s.Scoped) (kept : s.KeptIn t) :
    Store.Alike W (.upTo s.frames.size i) s t := by
  constructor
  · rintro e _ _ ⟨rfl, inside, rfl⟩
    obtain ⟨f, found⟩ : ∃ f, s.frame? e = some f := ⟨_, Array.getElem?_eq_getElem inside⟩
    obtain ⟨nested, bound⟩ := sound e f found
    refine ⟨f, f, found, kept e f found, ?_, ?_⟩
    · exact Bindings.alike_self self fun b member => (bound b member).alike self
    · cases outer : f.outer with
      | none => exact .none
      | some o =>
        have below := nested o outer
        refine .some ⟨below, below, _, ⟨rfl, Nat.lt_trans below inside, rfl⟩, ?_⟩
        exact fun _ _ name _ => name
  · rintro e _ _ _ _ ⟨rfl, -, rfl⟩ ⟨rfl, -, rfl⟩
    exact ⟨rfl, rfl⟩
  · rintro e _ _ _ _ ⟨rfl, -, -⟩ ⟨rfl, -, -⟩
    rfl

end Prefixes

/-- Every name stands for itself. -/
def sameNames : Vocabulary where
  kind := Unit
  naming _ a b := a = b
  oneToOne := by
    rintro - a b c d rfl rfl
    rfl

/-- The stores that calls of any functions lead to, failing ones included. -/
inductive Store.Called (s : Store) : Store → Prop where
  | refl : Called s s
  | call : Called s t → Called s ((applyFunction depth f args).after t)

theorem Store.Called.keptIn (called : Store.Called s t) : s.KeptIn t := by
  induction called with
  | refl => exact refl_of Store.KeptIn s
  | call _ ih => exact trans_of _ ih (Eval.keptIn_apply (Eval.keptBut_node _) _ _ _)

/-- A call has the same outcome when it is made again, at once or after further calls. The
depth is the same, so that a call that ends also ends again. -/
theorem applyFunction_repeats {s t : Store} (reachable : s.Reachable) (depth : Nat) (f : Closure)
    (args : List Value) (inside : f.env < s.frames.size)
    (within : ∀ v ∈ args, v.Within s.frames.size)
    (called : Store.Called ((applyFunction depth f args).after s) t) :
    Eval.SameOutcome (fun g h => g.params = h.params ∧ g.body = h.body)
      (applyFunction depth f args s) (applyFunction depth f args t) := by
  -- The second run meets the frames that the first one met, among others that it never sees.
  have kept : s.KeptIn t :=
    trans_of _ (Eval.keptIn_apply (Eval.keptBut_node depth) f args s) called.keptIn
  have self : ∀ a, sameNames.naming () a a := fun _ => rfl
  have alike := Store.Scoped.alike self reachable.scoped kept
  have calls : Eval.Mirrors (.upTo s.frames.size ()) (applyFunction depth f args)
      (applyFunction depth f args) (Value.Alike sameNames) := by
    refine Eval.mirrors_apply (Eval.mirrors_node depth) (i := ()) (j := ()) ⟨rfl, inside, rfl⟩
      ?_ ?_ ?_ ?_
    · exact List.forall₂_same.mpr fun a _ => self a
    · exact Node.alike_self f.body fun a _ => self a
    · exact List.forall₂_same.mpr fun v member => (within v member).alike self
    · exact fun _ _ _ name _ => name
  refine (calls _ (le_refl _) s t alike).sameOutcome fun P g h functions => ?_
  cases functions with
  | function _ params body =>
    exact ⟨Node.forall₂_eq (fun _ _ => id) params, Node.alike_eqIn (fun _ _ => id) body⟩

/-- The function `fn(b) { let a = a + b; fn() { a } }` of the outermost frame. -/
def shadowing : Closure :=
  ⟨[utf16 "b"],
    [.letStmt (utf16 "a") (.binary (utf16 "+") (.ident (utf16 "a")) (.ident (utf16 "b"))),
      .exprStmt (.fnLit [] [.exprStmt (.ident (utf16 "a"))])], 0, 0⟩

/-- One frame, after `let a = 1; let f = fn(b) { let a = a + b; fn() { a } }`. -/
def shadowingStore : Store :=
  (Eval.node 4 (.program [.letStmt (utf16 "a") (.int 1),
    .letStmt (utf16 "f") (.fnLit shadowing.params shadowing.body)]) 0).after
    ((Eval.newFrame none).after .empty)

theorem applyFunction_repeats_shadowing : shadowingStore.Reachable ∧
    0 < shadowingStore.frames.size ∧ (∃ g t, applyFunction 4 shadowing [.int 2] shadowingStore =
      .ok (.function g) t) ∧
    Eval.SameOutcome (fun g h => g.params = h.params ∧ g.body = h.body)
      (applyFunction 4 shadowing [.int 2] shadowingStore)
      (applyFunction 4 shadowing [.int 2]
        ((applyFunction 4 shadowing [.int 2]).after shadowingStore)) := by
  have reachable : shadowingStore.Reachable :=
    .evaluate (.newFrame .empty nofun) (by decide)
  have inside : 0 < shadowingStore.frames.size := by decide
  have within : ∀ v ∈ [Value.int 2], v.Within shadowingStore.frames.size := by
    simp [Value.Within]
  exact ⟨reachable, inside, ⟨_, _, rfl⟩,
    applyFunction_repeats reachable 4 shadowing [.int 2] inside within .refl⟩

end Monkey
