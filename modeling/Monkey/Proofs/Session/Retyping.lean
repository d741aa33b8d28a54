import Monkey.Proofs.Eval.Sequencing
import Monkey.Proofs.Grammar.Respelling
import Monkey.Proofs.Session.Integers

/-! What a session prints can be typed back. The text of a value that comes from a source reads as
one expression. Evaluated in any session, it gives the value again, or a function with the same
code, and binds nothing. The least word is left out: behind its minus sign stands no word. -/
namespace Monkey

/-- The value that the request gives, if it asks for one and is granted. -/
def Session.Request.given (r : Session.Request) (s : Session) : Option Value :=
  match r.run s with
  | .ok v _ => v
  | .error _ _ => none

/-- A value that evaluation of sources gives, by operations on frames or in a session. -/
inductive Value.FromSource (v : Value) : Prop where
  | operations : Store.Built s vs → v ∈ vs → FromSource v
  | session (requests : List Session.Request) (r : Session.Request) :
      Session.create depth entries = .ok s →
      r.given (requests.foldl Session.after s) = some v → FromSource v

theorem Session.Sourced.given {s : Session} (sourced : s.Sourced) {r : Session.Request}
    (answer : r.given s = some v) : ∃ n, v.Sourced n := by
  have ends := Session.sound_run r s sourced
  unfold Session.Request.given at answer
  cases run : r.run s with
  | ok w t =>
    rw [run] at ends answer
    exact ends.2 v answer
  | error f t =>
    rw [run] at answer
    cases answer

theorem Value.FromSource.sourced (given : Value.FromSource v) : ∃ n, v.Sourced n := by
  cases given with
  | operations built member => exact ⟨_, built.sound.2 v member⟩
  | session requests r created answer =>
    exact ((Session.sourced_of_create created).afterAll requests).given answer

/-- The text of a well-formed expression is a source of its own. -/
theorem parse_render_expression (formed : WellFormed .expression e) :
    parse e.render = .ok ⟨[.exprStmt e], [], 0⟩ := by
  have whole : (Node.program [.exprStmt e]).render = e.render := by
    simp [Node.render, Node.renderAll]
  rw [← whole]
  exact parse_render (.program (List.forall_mem_singleton.mpr (.exprStmt formed)))

namespace Value

/-- The expression is what the text of the value reads as. -/
inductive Quoted : Value → Node → Prop where
  | int (k : Int) : Quoted (.int k) (.int k)
  | negative {k m : Int} : k + m = 0 → -9223372036854775808 < k → k < 9223372036854775808 →
      Quoted (.int k) (.unary (utf16 "-") (.int m))
  | bool (b : Bool) : Quoted (.bool b) (.bool b)
  | null : Quoted .null (.ident (utf16 "null"))
  | function (c : Closure) : Quoted (.function c) (.fnLit c.params c.body)

/-- The same integer, boolean or `null`, or a function with the same code. -/
inductive Restored : Value → Value → Prop where
  | int (k : Int) : Restored (.int k) (.int k)
  | bool (b : Bool) : Restored (.bool b) (.bool b)
  | null : Restored .null .null
  | function {c d : Closure} : d.params = c.params → d.body = c.body →
      Restored (.function c) (.function d)

theorem Restored.print (restored : Restored v w) : w.print = v.print := by
  cases restored with
  | function params body => simp only [Value.print, Closure.print, params, body]
  | _ => rfl

theorem Restored.plain (restored : Restored v w) : w.isReturning = false := by
  cases restored <;> rfl

theorem Restored.same (restored : Restored v w) (data : v.isFunction = false) :
    v.same w = true := by
  cases restored with
  | int k => exact beq_self_eq_true k
  | bool b => exact beq_self_eq_true b
  | null => rfl
  | function => cases data

theorem Restored.code (restored : Restored (.function c) w) :
    ∃ d, w = .function d ∧ d.params = c.params ∧ d.body = c.body := by
  cases restored with
  | function params body => exact ⟨_, rfl, params, body⟩

/-- Every word but the least one is read back, with its sign as an operator. -/
theorem parse_decimal {k : Int} (low : -9223372036854775808 < k)
    (high : k < 9223372036854775808) :
    ∃ e, parse (decimal k) = .ok ⟨[.exprStmt e], [], 0⟩ ∧ Quoted (.int k) e := by
  have formed : Admissible .program (.program [.exprStmt (.int k)]) :=
    .program (List.forall_mem_singleton.mpr (.exprStmt (.int low high)))
  obtain ⟨body, parsed, respelled⟩ := parse_render_respelled formed
  have whole : (Node.program [.exprStmt (.int k)]).render = decimal k := by
    simp [Node.render, Node.renderAll]
  rw [whole] at parsed
  cases respelled with
  | cons first rest =>
    cases rest with
    | nil =>
      cases first with
      | exprStmt expr =>
        cases expr with
        | int => exact ⟨_, parsed, .int k⟩
        | signed opposite =>
          cases opposite with
          | opposite zero low high => exact ⟨_, parsed, .negative zero low high⟩
      | signed opposite => cases opposite

/-- The text of a value that comes from a source reads as an expression for it. -/
theorem Sourced.reads (sourced : Value.Sourced n v) (word : v ≠ .int (-9223372036854775808)) :
    ∃ text e, v.print = .ok text ∧ parse text = .ok ⟨[.exprStmt e], [], 0⟩ ∧ v.Quoted e := by
  cases v with
  | int k =>
    have apart : k ≠ -9223372036854775808 := fun same => word (congrArg Value.int same)
    obtain ⟨low, high⟩ := sourced
    obtain ⟨e, parsed, quoted⟩ := parse_decimal (k := k) (by omega) (by omega)
    exact ⟨_, e, rfl, parsed, quoted⟩
  | bool b =>
    have text : Value.print (.bool b) = .ok (Node.bool b).render := by rw [Value.print, Node.render]
    exact ⟨_, _, text, parse_render_expression .bool, .bool b⟩
  | null =>
    have name : IsName (utf16 "null") := ⟨by decide, List.all_eq_true.mp rfl, by decide⟩
    have text : Value.print .null = .ok (Node.ident (utf16 "null")).render := by
      rw [Value.print, Node.render]
    exact ⟨_, _, text, parse_render_expression (.ident name), .null⟩
  | function c =>
    obtain ⟨-, names, body⟩ := sourced
    have known := Node.unknownIn?_eq_none fun m member => (body m member).known
    have text : Value.print (.function c) = .ok (Node.fnLit c.params c.body).render := by
      rw [Value.print, Closure.print, known, Node.render]
    exact ⟨_, _, text, parse_render_expression (.fnLit names body), .function c⟩
  | returning v => exact sourced.elim
  | unknown kind => exact sourced.elim

/-- The expression gives the value back, wherever `null` does not stand for something else. -/
theorem Quoted.eval {s : Store} {frame : FrameId} (quoted : Quoted v e)
    (unbound : v = .null → s.lookup frame (utf16 "null") = none) (depth : Nat) :
    ∃ w s', Eval.node (depth + 2) e frame s = .ok w s' ∧ v.Restored w ∧ s'.frames = s.frames := by
  cases quoted with
  | int k => exact ⟨_, s, rfl, .int k, rfl⟩
  | @negative k m zero low high =>
    have sign : applyUnary (utf16 "-") (.int m) = .int k := by
      have opposite : -m = k := by omega
      have word : wrap k = k := wrap_eq_self (by omega) (by omega)
      have minus : applyUnary (utf16 "-") (.int m) = .int (wrap (-m)) := rfl
      rw [minus, opposite, word]
    have operand : Eval.node (depth + 1) (.int m) frame s = .ok (.int m) s := rfl
    refine ⟨_, s, ?_, .int k, rfl⟩
    have run := Eval.onValue_run operand rfl fun v => pure (applyUnary (utf16 "-") v)
    exact run.trans (by rw [sign]; rfl)
  | bool b => exact ⟨_, s, rfl, .bool b, rfl⟩
  | null =>
    refine ⟨_, s, ?_, .null, rfl⟩
    have read : Eval.readName frame (utf16 "null") s =
        .ok ((s.lookup frame (utf16 "null")).getD .null) s := rfl
    rw [unbound rfl] at read
    exact read
  | function c => exact ⟨_, _, rfl, .function rfl rfl, rfl⟩

end Value

namespace Session

/-- A source of one expression gives the value of the expression. -/
theorem evaluate_expression {t : Session} (parsed : parse text = .ok ⟨[.exprStmt e], [], 0⟩)
    (deep : t.depth = d + 1) (run : Eval.node d e t.env t.store = .ok w s)
    (plain : w.isReturning = false) : evaluate text t = .ok w { t with store := s } := by
  have source : evaluate text t = lift (Monkey.evaluateProgram t.depth [.exprStmt e] t.env) t := by
    simp only [evaluate, parseClean, parseSource, parsed, List.isEmpty_nil, if_true]
    rfl
  have statement : Eval.node t.depth (.exprStmt e) t.env t.store = .ok w s := by
    rw [deep]
    exact run
  have body : Eval.statements (Eval.node t.depth · t.env) .null [.exprStmt e] t.store = .ok w s :=
    Eval.onValue_run statement plain _
  have program : Monkey.evaluateProgram t.depth [.exprStmt e] t.env t.store = .ok w.unwrap s := by
    simp only [Monkey.evaluateProgram, Eval.program, bind, EStateM.bind, body]
    rfl
  have opened : w.unwrap = w := by
    cases w with
    | returning v => cases plain
    | _ => rfl
  rw [source, lift, program, opened]

/-- The text of the value can be typed back in the session. It parses without diagnostics as one
statement. Evaluating it gives a value with this text: the same value, or a function with the same
code. All frames have the bindings they had. -/
def TypesBack (t : Session) (v : Value) : Prop :=
  ∃ text n w t', v.print = .ok text ∧ parse text = .ok ⟨[n], [], 0⟩ ∧
    evaluate text t = .ok w t' ∧ w.print = .ok text ∧
    t'.bindings = t.bindings ∧ t'.env = t.env ∧ t'.store.frames = t.store.frames ∧
    (v.isFunction = false → v.same w = true) ∧
    ∀ c, v = .function c → ∃ d, w = .function d ∧ d.params = c.params ∧ d.body = c.body

/-- Every value that comes from a source, but for the least word, can be typed back in every
session that may nest three deep; `null` needs a session that does not bind its name. -/
theorem evaluate_print_restores (v : Value) (given : v.FromSource)
    (word : v ≠ .int (-9223372036854775808)) (t : Session) (deep : 3 ≤ t.depth)
    (unbound : v = .null → t.lookup (utf16 "null") = none) : t.TypesBack v := by
  obtain ⟨n, sourced⟩ := given.sourced
  obtain ⟨text, e, printed, parsed, quoted⟩ := sourced.reads word
  obtain ⟨depth, levels⟩ : ∃ depth, t.depth = depth + 2 + 1 := ⟨t.depth - 3, by omega⟩
  obtain ⟨w, store, run, restored, frames⟩ := quoted.eval unbound depth
  have ran := evaluate_expression parsed levels run restored.plain
  have bindings : ({ t with store } : Session).bindings = t.bindings := by
    simp only [Session.bindings, Store.bindings, Store.frame?, frames]
  refine ⟨text, _, w, _, printed, parsed, ran, restored.print.trans printed, bindings, rfl, frames,
    restored.same, ?_⟩
  rintro c rfl
  exact restored.code

/-- A function whose body subtracts an opposite. -/
def subtractingSource : Text :=
  utf16 "let k = 0 - 7; fn(x) \x7b return k - -x; \x7d"

theorem evaluate_print_restores_subtracting : ∃ (v : Value) (t : Session), v.FromSource ∧
    v.print.toOption = some (utf16 "fn(x) \x7b return (k - (-x)) \x7d") ∧
    t.depth = 8 ∧ t.bindings.names = [utf16 "k"] ∧ t.TypesBack v := by
  let start := blank 8 []
  let after := start.after (.evaluate subtractingSource)
  have shown : (Request.given (.evaluate subtractingSource) start).map
      (fun v => (v.isFunction, v.print.toOption)) =
        some (true, some (utf16 "fn(x) \x7b return (k - (-x)) \x7d")) := by decide +kernel
  have settings : after.depth = 8 ∧ after.bindings.names = [utf16 "k"] := by decide +kernel
  obtain ⟨v, answer, seen⟩ := Option.map_eq_some_iff.mp shown
  obtain ⟨function, text⟩ := Prod.mk.inj seen
  have created : create 8 [] = .ok start := rfl
  have given : v.FromSource := .session [] _ created answer
  have deep : 3 ≤ after.depth := by omega
  refine ⟨v, after, given, text, settings.1, settings.2,
    evaluate_print_restores v given ?_ after deep ?_⟩
  · rintro rfl
    cases function
  · rintro rfl
    cases function

end Session

end Monkey
