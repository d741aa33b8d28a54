import Monkey.Proofs.Eval.Operation
import Monkey.Proofs.Eval.Watching
import Monkey.Proofs.Session.Failures

/-! Integers of the language are signed 64-bit words. Where only sources are evaluated, no other
integer is ever given, passed, carried by a signal or bound, and every literal that a function keeps
in its body is a word that a source can write. -/
namespace Monkey

/-- The integer is written somewhere in the tree. -/
inductive Node.Writes (k : Int) : Node → Prop where
  | literal : Writes k (.int k)
  | part : m ∈ n.parts → Writes k m → Writes k n

theorem WellFormed.literal_range (formed : WellFormed role n) (written : n.Writes k) :
    0 ≤ k ∧ k ≤ 9223372036854775807 := by
  induction written generalizing role with
  | literal =>
    cases formed with
    | int least most => exact ⟨least, most⟩
  | part member _ ih =>
    obtain ⟨_, formed⟩ := formed.part _ member
    exact ih formed

namespace Value

/-- An integer is a word, and the literals in the body of a function are words that a source can
write. -/
def Bounded : Value → Prop
  | int k => -9223372036854775808 ≤ k ∧ k ≤ 9223372036854775807
  | function c => ∀ m ∈ c.body, ∀ k, m.Writes k → 0 ≤ k ∧ k ≤ 9223372036854775807
  | returning v => v.Bounded
  | _ => True

theorem Sourced.bounded (sourced : Value.Sourced n v) : v.Bounded := by
  cases v with
  | int k => exact sourced
  | function c => exact fun m member _ written => (sourced.2.2 m member).literal_range written
  | returning v => exact sourced.elim
  | _ => trivial

theorem Bounded.of_unwrap {v : Value} (bounded : v.unwrap.Bounded) : v.Bounded := by
  cases v with
  | _ => exact bounded

end Value

/-- Only words are bound, and only literals that a source can write are kept. -/
def Store.Bounded (s : Store) : Prop := ∀ e, ∀ b ∈ s.bindings e, b.2.Bounded

theorem Store.Holds.bounded (holds : Store.Holds Value.Sourced s) : s.Bounded :=
  fun e b member => (holds.bindings e b member).bounded

/-- What well-formed code gives is bounded, and so is what it hands over in a signal. -/
theorem bounded_of_gives (gives : Eval.Gives sourcing k v) : v.Bounded := by
  have sourced : v.unwrap.Sourced k := gives
  exact sourced.bounded.of_unwrap

theorem parse_formed (run : parse source = .ok p) :
    ∀ m ∈ p.statements, WellFormed .statement m := by
  obtain ⟨q, run', formed⟩ := parse_ends source
  obtain rfl := Except.ok.inj (run'.symm.trans run)
  exact formed

namespace Store

/-- Whatever the operation is given comes from a source or is among the values. -/
def Operation.Sourced (vs : List Value) : Operation → Prop
  | newFrame _ => True
  | define _ _ v => v ∈ vs
  | extend _ args _ => ∀ v ∈ args, v ∈ vs
  | bindParams _ args _ => ∀ v ∈ args, v ∈ vs
  | evaluate _ n _ => ∃ source p, parse source = .ok p ∧ n = p.program
  | apply _ f args => .function f ∈ vs ∧ ∀ v ∈ args, v ∈ vs

/-- The value that the operation gives, if it gives one. -/
def Operation.given (op : Operation) (s : Store) : List Value :=
  match op.run s with
  | .ok v _ => v.toList
  | .error _ _ => []

/-- What sources alone lead to: a store, and the values that were given or looked up so far. -/
inductive Built : Store → List Value → Prop where
  | empty : Built .empty []
  | step (op : Operation) : Built s vs → op.Refers s.frames.size → op.Sourced vs →
      Built (op.run.after s) (op.given s ++ vs)
  | lookup : Built s vs → s.lookup e name = some v → Built s (v :: vs)

theorem Operation.Sourced.admitted {op : Operation} (sourced : op.Sourced vs)
    (refers : op.Refers n) (values : ∀ v ∈ vs, v.Sourced n) : op.Admitted sourcing n := by
  cases op with
  | newFrame outer => exact refers
  | define e name v => exact ⟨refers.1, values v sourced⟩
  | extend params args outer => exact ⟨refers.1, fun v member => values v (sourced v member)⟩
  | bindParams params args outer => exact ⟨refers.1, fun v member => values v (sourced v member)⟩
  | evaluate depth m e =>
    obtain ⟨source, p, run, rfl⟩ := sourced
    exact ⟨refers, _, .program (parse_formed run)⟩
  | apply depth f args =>
    exact ⟨values _ sourced.1, fun v member => values v (sourced.2 v member)⟩

theorem Built.sound (built : Built s vs) :
    s.Holds Value.Sourced ∧ ∀ v ∈ vs, v.Sourced s.frames.size := by
  induction built with
  | empty => exact ⟨holds_empty, nofun⟩
  | @step s vs op _ refers sourced ih =>
    obtain ⟨holds, values⟩ := ih
    have stays := op.respects_run (sourced.admitted refers values) s (Nat.le_refl _) holds
    unfold Operation.given Eval.after
    cases result : op.run s with
    | ok given t =>
      rw [result] at stays
      obtain ⟨more, kept, fresh⟩ := stays
      refine ⟨kept, fun v member => ?_⟩
      rcases List.mem_append.mp member with member | member
      · exact fresh v (by simpa using member)
      · exact (values v member).grow more
    | error f t =>
      rw [result] at stays
      obtain ⟨more, kept, -⟩ := stays
      exact ⟨kept, fun v member => (values v member).grow more⟩
  | lookup _ found ih =>
    obtain ⟨holds, values⟩ := ih
    exact ⟨holds, List.forall_mem_cons.mpr ⟨holds.lookup found, values⟩⟩

end Store

/-- Whatever is built from sources alone, by operations on frames or in a session, the values that
are given and bound are bounded. Evaluation is the same under a watch, for any test that bounded
values pass and whatever the watch does at the first value that fails it: no other value is
computed, passed as an argument or carried by a signal on the way. -/
theorem integers_are_words :
    (∀ s vs, Store.Built s vs →
      s.Bounded ∧ (∀ v ∈ vs, v.Bounded) ∧
      ∀ depth test alarm, (∀ v : Value, v.Bounded → test v = true) →
        (∀ source p e, parse source = .ok p → e < s.frames.size →
          Eval.watched test alarm depth p.program e s = Eval.node depth p.program e s) ∧
        ∀ f args, .function f ∈ vs → (∀ v ∈ args, v ∈ vs) →
          Eval.apply (Eval.watched test alarm depth) f args s = applyFunction depth f args s) ∧
    ∀ depth entries s, Session.create depth entries = .ok s →
      ∀ requests : List Session.Request, ∃ t, t = requests.foldl Session.after s ∧
        t.store.Bounded ∧
        (∀ r v t', Session.Request.run r t = .ok (some v) t' → v.Bounded) ∧
        ∀ test alarm, (∀ v : Value, v.Bounded → test v = true) →
          ∀ source p, parse source = .ok p →
            Eval.program (Eval.watched test alarm t.depth · t.env) p.statements t.store =
              evaluateProgram t.depth p.statements t.env t.store := by
  constructor
  · intro s vs built
    obtain ⟨holds, values⟩ := built.sound
    refine ⟨holds.bounded, fun v member => (values v member).bounded, ?_⟩
    intro depth test alarm passes
    have passes : ∀ k v, Eval.Gives sourcing k v → test v = true :=
      fun _ v gives => passes v (bounded_of_gives gives)
    constructor
    · intro source p e run inside
      have coincides := Eval.coincides_watched passes alarm depth
        ⟨_, .program (parse_formed run)⟩ inside
      exact coincides.same s (Nat.le_refl _) holds
    · intro f args callable given
      have coincides := Eval.coincides_apply (Eval.coincides_watched passes alarm depth) f
        (values _ callable) fun v member => values v (given v member)
      exact coincides.same s (Nat.le_refl _) holds
  · intro depth entries s created requests
    have sourced : s.Sourced := by
      obtain ⟨s', started, sourced⟩ | ⟨f, failed, -⟩ := Session.create_ends depth entries
      · cases created.symm.trans started
        exact sourced
      · cases created.symm.trans failed
    obtain ⟨holds, inside⟩ := sourced.afterAll requests
    refine ⟨_, rfl, holds.bounded, fun r v t' run => ?_, fun test alarm passes source p run => ?_⟩
    · have ends := Session.sound_run r _ ⟨holds, inside⟩
      rw [run] at ends
      obtain ⟨n, sourced⟩ := ends.2 v rfl
      exact sourced.bounded
    · have passes : ∀ k v, Eval.Gives sourcing k v → test v = true :=
        fun _ v gives => passes v (bounded_of_gives gives)
      have coincides := Eval.coincides_watchedProgram passes alarm
        (requests.foldl Session.after s).depth
        (fun m member => ⟨_, parse_formed run m member⟩) inside
      exact coincides.same _ (Nat.le_refl _) holds

/-- Twice the largest word, from an argument and by a signal. -/
def doubledSource : Text :=
  utf16 "let f = fn(x) \x7b return x * 2; \x7d; f(9223372036854775807)"

theorem integers_are_words_doubled : ∃ p s v, parse doubledSource = .ok p ∧
    s = (Store.Operation.run (.evaluate 8 p.program 0)).after
      ((Store.Operation.run (.newFrame none)).after .empty) ∧
    Store.Built s [v] ∧ v.print.toOption = some (utf16 "-2") ∧ s.Bounded ∧ v.Bounded := by
  let frame := (Store.Operation.run (.newFrame none)).after .empty
  have printed : ((parse doubledSource).toOption.map fun p =>
      ((Store.Operation.evaluate 8 p.program 0).given frame).map fun v => v.print.toOption) =
        some [some (utf16 "-2")] := by decide +kernel
  cases run : parse doubledSource with
  | error f =>
    rw [run] at printed
    cases printed
  | ok p =>
    rw [run] at printed
    obtain ⟨v, given, shown⟩ := List.map_eq_singleton_iff.mp (Option.some.inj printed)
    have built : Store.Built frame [] := .step (.newFrame none) .empty nofun trivial
    have built := built.step (.evaluate 8 p.program 0) (show 0 < 1 by decide) ⟨_, p, run, rfl⟩
    rw [given] at built
    obtain ⟨bounded, values, -⟩ := integers_are_words.1 _ _ built
    exact ⟨p, _, v, rfl, rfl, built, shown, bounded, values v (.head _)⟩

end Monkey
