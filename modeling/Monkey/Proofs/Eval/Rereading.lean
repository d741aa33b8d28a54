import Monkey.Proofs.Eval.Respelling
import Monkey.Proofs.Grammar.Respelling

/-! Printing keeps the meaning of programs that no source spells. With bare blocks and negative
integers the text of a program reads as another program, but evaluation cannot tell the two
apart. -/
namespace Monkey

/-- The run of a program in an environment of its own. -/
def freshRun (depth : Nat) (body : List Node) : EStateM.Result Failure Store Value :=
  evaluateProgram depth body (Store.empty.alloc none).1 (Store.empty.alloc none).2

/-- The names in the environment that the run was started in, in their order. -/
def Store.globals (s : Store) : List Text := (s.bindings (Store.empty.alloc none).1).names

/-- The same integer, boolean or `null`, or two functions. -/
inductive Value.Matches : Value → Value → Prop where
  | int (v : Int) : Matches (.int v) (.int v)
  | bool (b : Bool) : Matches (.bool b) (.bool b)
  | null : Matches .null .null
  | function (f g : Closure) : Matches (.function f) (.function g)

/-- The runs give values that match, or fail with the same message, and bind the same names. -/
inductive SameEnd : EStateM.Result Failure Store Value → EStateM.Result Failure Store Value → Prop
  where
  | value : v.Matches w → s.globals = t.globals → SameEnd (.ok v s) (.ok w t)
  | failure : f.message = g.message → s.globals = t.globals → SameEnd (.error f s) (.error g t)

theorem Value.Matches.symm (matching : Matches v w) : Matches w v := by
  cases matching <;> constructor

theorem Value.Matches.trans (first : Matches u v) (second : Matches v w) : Matches u w := by
  cases first <;> cases second <;> constructor

theorem SameEnd.symm (same : SameEnd x y) : SameEnd y x := by
  cases same with
  | value matching names => exact .value matching.symm names.symm
  | failure message names => exact .failure message.symm names.symm

theorem SameEnd.trans (first : SameEnd x y) (second : SameEnd y z) : SameEnd x z := by
  cases first with
  | value matching names =>
    cases second with
    | value matching' names' => exact .value (matching.trans matching') (names.trans names')
  | failure message names =>
    cases second with
    | failure message' names' => exact .failure (message.trans message') (names.trans names')

theorem Value.Akin.matches (akin : Value.Akin .same v w) : v.Matches w := by
  cases akin <;> constructor

theorem Bindings.Alike.names {bs cs : Bindings} (alike : Bindings.Alike Eq V bs cs) :
    bs.names = cs.names := by
  induction alike with
  | nil => rfl
  | both name _ _ ih =>
    simp only [Bindings.names, List.map_cons, name] at ih ⊢
    rw [ih]
  | left free => exact absurd rfl (free _)
  | right free => exact absurd rfl (free _)

theorem Eval.EndAkin.sameEnd (ends : Eval.EndAkin (Value.Akin .same) x y) : SameEnd x y := by
  cases ends with
  | ok akin stores => exact .value akin.matches (stores.bindings _).names
  | error failures stores => exact .failure failures.message (stores.bindings _).names

/-- What ends is told apart from what runs out of depth. -/
theorem Eval.EndAkin.ranOut_eq (ends : Eval.EndAkin Q x y) : Eval.ranOut x = Eval.ranOut y := by
  cases ends with
  | ok => rfl
  | error failures => cases failures <;> rfl

theorem akin_fresh : Store.Akin (Store.empty.alloc none).2 (Store.empty.alloc none).2 := by
  have empty : Store.Akin .empty .empty := ⟨rfl, fun _ => .none⟩
  exact empty.push ⟨.nil, rfl⟩

/-- A run that ends is followed by a run of the other spelling at three times the depth. -/
theorem freshRun_respelled (bodies : List.Forall₂ (Node.Respelled .same) body body')
    (ended : Eval.ranOut (freshRun d body) = false) (enough : 3 * d ≤ k) :
    Eval.ranOut (freshRun k body') = false ∧ SameEnd (freshRun d body) (freshRun k body') := by
  have follows := Eval.follows_program enough bodies (Store.empty.alloc none).1
  rcases follows _ _ akin_fresh with out | ends
  · exact absurd (out.symm.trans ended) (by decide)
  · exact ⟨ends.ranOut_eq.symm.trans ended, ends.sameEnd⟩

/-- Runs of two spellings end alike, whatever depths they end at. -/
theorem freshRun_agree (bodies : List.Forall₂ (Node.Respelled .same) body body')
    (ended : Eval.ranOut (freshRun d body) = false)
    (ended' : Eval.ranOut (freshRun d' body') = false) :
    SameEnd (freshRun d body) (freshRun d' body') := by
  -- both are followed at a depth where the first spelling follows the second
  have back := Node.respelled_symmIn bodies
  obtain ⟨ended₁, there⟩ := freshRun_respelled bodies ended (k := 3 * d) (by omega)
  obtain ⟨-, here⟩ := freshRun_respelled back ended₁ (k := 9 * d + 3 * d') (by omega)
  obtain ⟨-, here'⟩ := freshRun_respelled back ended' (k := 9 * d + 3 * d') (by omega)
  exact (there.trans here).trans here'.symm

/-- An admissible program is printed as a text that parses without diagnostics as a program that
ends if and only if it does, and then alike. -/
theorem parse_print_sameEnd (body : List Node) (formed : Admissible .program (.program body)) :
    ∃ text body', (Node.program body).print = .ok text ∧ parse text = .ok ⟨body', [], 0⟩ ∧
      ((∃ d, Eval.ranOut (freshRun d body) = false) ↔
        ∃ d, Eval.ranOut (freshRun d body') = false) ∧
      ∀ d d', Eval.ranOut (freshRun d body) = false → Eval.ranOut (freshRun d' body') = false →
        SameEnd (freshRun d body) (freshRun d' body') := by
  obtain ⟨body', parsed, bodies⟩ := parse_render_respelled formed
  refine ⟨(Node.program body).render, body', ?_, parsed, ⟨?_, ?_⟩, ?_⟩
  · rw [Node.print, formed.known]
  · rintro ⟨d, ended⟩
    exact ⟨3 * d, (freshRun_respelled bodies ended (by omega)).1⟩
  · rintro ⟨d, ended⟩
    exact ⟨3 * d, (freshRun_respelled (Node.respelled_symmIn bodies) ended (by omega)).1⟩
  · exact fun d d' ended ended' => freshRun_agree bodies ended ended'

/-- The program `let f = fn(x) { { return x - -7 } 0 }; { let y = -5(f) } f(-9223372036854775807)`,
in which the inner braces are bare blocks and the minus signs before digits are parts of
integers. -/
def signedBody : List Node :=
  [.letStmt (utf16 "f") (.fnLit [utf16 "x"]
      [.block [.returnStmt (.binary (utf16 "-") (.ident (utf16 "x")) (.int (-7)))],
        .exprStmt (.int 0)]),
    .block [.letStmt (utf16 "y") (.call (.int (-5)) [.ident (utf16 "f")])],
    .exprStmt (.call (.ident (utf16 "f")) [.int (-9223372036854775807)])]

theorem parse_print_signedBody : Admissible .program (.program signedBody) ∧
    Eval.ranOut (freshRun 6 signedBody) = false ∧
    ∃ text body', (Node.program signedBody).print = .ok text ∧ parse text = .ok ⟨body', [], 0⟩ ∧
      ((∃ d, Eval.ranOut (freshRun d signedBody) = false) ↔
        ∃ d, Eval.ranOut (freshRun d body') = false) ∧
      ∀ d d', Eval.ranOut (freshRun d signedBody) = false →
        Eval.ranOut (freshRun d' body') = false →
          SameEnd (freshRun d signedBody) (freshRun d' body') := by
  have f : IsName (utf16 "f") := ⟨by decide, List.all_eq_true.mp rfl, by decide⟩
  have x : IsName (utf16 "x") := ⟨by decide, List.all_eq_true.mp rfl, by decide⟩
  have y : IsName (utf16 "y") := ⟨by decide, List.all_eq_true.mp rfl, by decide⟩
  have difference : Admissible .expression
      (.binary (utf16 "-") (.ident (utf16 "x")) (.int (-7))) :=
    .binary (by decide) (.ident x) (.int (by decide) (by decide))
  have inner : Admissible .statement
      (.block [.returnStmt (.binary (utf16 "-") (.ident (utf16 "x")) (.int (-7)))]) :=
    .block (by simpa using .returnStmt difference)
  have zero : Admissible .statement (.exprStmt (.int 0)) := .exprStmt (.int (by decide) (by decide))
  have function : Admissible .statement (.letStmt (utf16 "f") (.fnLit [utf16 "x"]
      [.block [.returnStmt (.binary (utf16 "-") (.ident (utf16 "x")) (.int (-7)))],
        .exprStmt (.int 0)])) :=
    .letStmt f (.fnLit (by simpa using x) (by simpa using ⟨inner, zero⟩))
  have headed : Admissible .statement
      (.block [.letStmt (utf16 "y") (.call (.int (-5)) [.ident (utf16 "f")])]) :=
    .block (by simpa using .letStmt y (.call (.int (by decide) (by decide)) (by simpa using .ident f)))
  have call : Admissible .statement
      (.exprStmt (.call (.ident (utf16 "f")) [.int (-9223372036854775807)])) :=
    .exprStmt (.call (.ident f) (by simpa using .int (by decide) (by decide)))
  have formed : Admissible .program (.program signedBody) :=
    .program (by simpa [signedBody] using ⟨function, headed, call⟩)
  exact ⟨formed, by decide +kernel, parse_print_sameEnd signedBody formed⟩

end Monkey
