import Monkey.Proofs.Grammar.RoundTrip
import Monkey.Proofs.Node.Respelling

/-! The text of a tree with bare blocks and negative integers. It reads without diagnostics as
another spelling of the tree: bare blocks come back as conditionals, and the minus sign of a
negative integer comes back as an operator before all the calls that the integer is the head of. -/
namespace Monkey

theorem congruence_respelled : Congruence (Node.Respelled .same) where
  letStmt := .letStmt
  returnStmt := .returnStmt
  exprStmt := .exprStmt
  ident := .ident
  int := .int
  bool := .bool
  unary := .unary
  binary := .binary
  ifThen := .ifThen
  ifElse := .ifElse
  fnLit := .fnLit
  call := .call

/-- The tokens spell the expression tightly, or its opposite behind a minus sign. -/
inductive Signed (e : Node) : List Token → Prop where
  | plain : ReadAs (Node.Respelled .same) (.expression 6) e w → Signed e w
  | minus (sign : Mark .minus) : sign.1.literal = utf16 "-" →
      ReadAs (Node.Respelled .opposite) (.expression 6) e w → Signed e (sign.1 :: w)

/-- Behind a minus sign an expression still fits every place but that of a callee. -/
theorem Signed.operand (signed : Signed e w) :
    ReadAs (Node.Respelled .same) (.expression 5) e w := by
  cases signed with
  | plain read => exact read.loosen (by decide)
  | minus sign literal read =>
    obtain ⟨e', respelled, spelled⟩ := read
    have whole := Spells.unary (n := 5) sign.1 (.inr sign.2) (by decide) (spelled.loosen (by decide))
    rw [literal] at whole
    exact ⟨_, .signed respelled, whole⟩

/-- Arguments go to the call behind the minus sign. -/
theorem Signed.call (signed : Signed f w)
    (arguments : ArgumentsReadAs (Node.Respelled .same) args u) :
    Signed (.call f args) (w ++ u) := by
  obtain ⟨args', reads, calls⟩ := arguments
  cases signed with
  | plain read =>
    obtain ⟨f', respelled, spelled⟩ := read
    exact .plain ⟨_, .call respelled reads, calls f' _ spelled⟩
  | minus sign literal read =>
    obtain ⟨f', respelled, spelled⟩ := read
    exact .minus sign literal ⟨_, .call respelled reads, calls f' _ spelled⟩

theorem lexes_minus :
    Lexes Anything (utf16 "-") fun ts =>
      ∃ sign : Mark .minus, sign.1.literal = utf16 "-" ∧ ts = [sign.1] := by
  intro c rest _
  exact ⟨_, _, .token rfl rfl rfl .done, ⟨_, rfl⟩, rfl, rfl⟩

theorem lexes_signedInt {v : Int} (low : -9223372036854775808 < v)
    (high : v < 9223372036854775808) : Lexes Loose (Node.int v).render (Signed (.int v)) := by
  by_cases negative : v < 0
  · have text : (Node.int v).render = utf16 "-" ++ (Node.int (-v)).render := by
      simp only [Node.render, decimal, if_pos negative, Int.natAbs_neg]
      rw [if_neg (by omega)]
    have number := lexes_int (n := 6) (v := -v) (by omega) (by omega)
    rw [text]
    apply (lexes_minus.append number fun _ _ => trivial).weaken
    rintro ts ⟨_, w, ⟨sign, literal, rfl⟩, spelled, rfl⟩
    exact .minus sign literal ⟨_, .opposite (by omega) low high, spelled⟩
  · apply (lexes_int (by omega) (by omega)).weaken
    intro ts spelled
    exact .plain ⟨_, .int v, spelled⟩

/-- The text of a tree reads as another spelling of the tree. -/
def Respellable : Role → Node → Prop
  | .program, n => ∃ body, n = .program body ∧
      Lexes Loose n.render (BodyReadAs (Node.Respelled .same) body)
  | .statement, n => Lexes Loose n.render (ReadAs (Node.Respelled .same) .statement n)
  | .expression, n => Lexes Loose n.render (Signed n)

theorem Respellable.operand (respellable : Respellable .expression e) :
    Lexes Loose e.render (ReadAs (Node.Respelled .same) (.expression 5) e) :=
  Lexes.weaken respellable fun _ => Signed.operand

theorem Admissible.respellable (formed : Admissible role n) : Respellable role n := by
  have congruence := congruence_respelled
  have plain {e : Node} (lexes : Lexes Loose e.render
      (ReadAs (Node.Respelled .same) (.expression 6) e)) : Respellable .expression e :=
    lexes.weaken fun _ => .plain
  induction formed with
  | @program body _ ih =>
    refine ⟨body, rfl, ?_⟩
    rw [Node.render, Node.renderAll_eq_map]
    exact lexes_body body ih
  | @block body _ ih =>
    have condition : Lexes Loose (Node.bool true).render
        (ReadAs (Node.Respelled .same) (.expression 5) (.bool true)) :=
      (lexes_bool true).weaken fun ts spelled => ⟨_, .bool true, spelled⟩
    have text : (Node.block body).render = (Node.ifThen (.bool true) body).render := by
      have head : utf16 "if (true) " = utf16 "if (" ++ utf16 "true" ++ utf16 ") " := by decide
      simp only [Node.render, head, if_true]
    rw [Respellable, text]
    apply (lexes_ifThen (n := 1) congruence condition ih).weaken
    rintro ts ⟨_, respelled, spelled⟩
    -- neither a conditional nor `true` has an opposite, so both are read as they are
    cases respelled with
    | ifThen condition yes =>
      cases condition with
      | bool => exact ⟨_, .blockAsIf yes, .exprStmt spelled⟩
      | signed negative => cases negative
    | signed negative => cases negative
  | letStmt name _ value => exact lexes_letStmt congruence name value.operand
  | returnStmt _ value => exact lexes_returnStmt congruence value.operand
  | exprStmt _ value => exact lexes_exprStmt congruence value.operand
  | ident name => exact plain (lexes_ident congruence name)
  | int low high => exact lexes_signedInt low high
  | @bool b => exact plain ((lexes_bool b).weaken fun ts spelled => ⟨_, .bool b, spelled⟩)
  | unary listed formed operand =>
    exact plain (lexes_unary congruence listed operand.operand formed.head_render)
  | binary listed _ _ left right =>
    exact plain (lexes_binary congruence listed left.operand right.operand)
  | ifThen _ _ condition yes => exact plain (lexes_ifThen congruence condition.operand yes)
  | ifElse _ _ _ condition yes no =>
    exact plain (lexes_ifElse congruence condition.operand yes no)
  | fnLit names _ body => exact plain (lexes_fnLit congruence names body)
  | call _ _ callee args =>
    apply (lexes_call callee fun a member => (args a member).operand).weaken
    rintro ts ⟨w, u, signed, arguments, rfl⟩
    exact signed.call arguments

/-- The text of an admissible program parses without diagnostics as another spelling of it. -/
theorem parse_render_respelled (formed : Admissible .program (.program body)) :
    ∃ body', parse (Node.program body).render = .ok ⟨body', [], 0⟩ ∧
      List.Forall₂ (Node.Respelled .same) body body' := by
  obtain ⟨_, same, lexes⟩ := formed.respellable
  cases same
  obtain ⟨ts, c, read, body', respelled, spelled⟩ := lexes .zero [] rfl
  refine ⟨body', ?_, respelled⟩
  rw [List.append_nil] at read
  rw [parse, tokenize_eq read]
  exact run_spelling spelled rfl

end Monkey
