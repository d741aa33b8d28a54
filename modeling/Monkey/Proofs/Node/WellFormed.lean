import Monkey.Node.Printer
import Monkey.Proofs.Token.Lexeme

/-! The trees that sources can spell. -/
namespace Monkey

def prefixOperators : List Text := ["!", "-"].map utf16

def infixOperators : List Text := ["+", "-", "*", "/", "<", ">", "==", "!="].map utf16

/-- What a node stands for. -/
inductive Role where
  | program | statement | expression

/-- A tree with names, integers and operators of the language and with every part in a
place of its own role. No bare block stands among the statements. -/
inductive WellFormed : Role → Node → Prop where
  | program : (∀ s ∈ body, WellFormed .statement s) → WellFormed .program (.program body)
  | letStmt : IsName x → WellFormed .expression e → WellFormed .statement (.letStmt x e)
  | returnStmt : WellFormed .expression e → WellFormed .statement (.returnStmt e)
  | exprStmt : WellFormed .expression e → WellFormed .statement (.exprStmt e)
  | ident : IsName x → WellFormed .expression (.ident x)
  | int {v : Int} : 0 ≤ v → v ≤ 9223372036854775807 → WellFormed .expression (.int v)
  | bool : WellFormed .expression (.bool b)
  | unary : op ∈ prefixOperators → WellFormed .expression e →
      WellFormed .expression (.unary op e)
  | binary : op ∈ infixOperators → WellFormed .expression l → WellFormed .expression r →
      WellFormed .expression (.binary op l r)
  | ifThen : WellFormed .expression c → (∀ s ∈ yes, WellFormed .statement s) →
      WellFormed .expression (.ifThen c yes)
  | ifElse : WellFormed .expression c → (∀ s ∈ yes, WellFormed .statement s) →
      (∀ s ∈ no, WellFormed .statement s) → WellFormed .expression (.ifElse c yes no)
  | fnLit : (∀ x ∈ params, IsName x) → (∀ s ∈ body, WellFormed .statement s) →
      WellFormed .expression (.fnLit params body)
  | call : WellFormed .expression f → (∀ a ∈ args, WellFormed .expression a) →
      WellFormed .expression (.call f args)

namespace Node

theorem unknownIn?_eq_none (known : ∀ n ∈ ns, unknown? n = none) : unknownIn? ns = none := by
  induction ns with
  | nil => rfl
  | cons n ns ih =>
    rw [unknownIn?, known n (by simp), ih fun m member => known m (by simp [member])]
    rfl

end Node

/-- A tree that is well formed but for bare blocks among its statements and for negative
integers. -/
inductive Admissible : Role → Node → Prop where
  | program : (∀ s ∈ body, Admissible .statement s) → Admissible .program (.program body)
  | block : (∀ s ∈ body, Admissible .statement s) → Admissible .statement (.block body)
  | letStmt : IsName x → Admissible .expression e → Admissible .statement (.letStmt x e)
  | returnStmt : Admissible .expression e → Admissible .statement (.returnStmt e)
  | exprStmt : Admissible .expression e → Admissible .statement (.exprStmt e)
  | ident : IsName x → Admissible .expression (.ident x)
  | int {v : Int} : -9223372036854775808 < v → v < 9223372036854775808 →
      Admissible .expression (.int v)
  | bool : Admissible .expression (.bool b)
  | unary : op ∈ prefixOperators → Admissible .expression e →
      Admissible .expression (.unary op e)
  | binary : op ∈ infixOperators → Admissible .expression l → Admissible .expression r →
      Admissible .expression (.binary op l r)
  | ifThen : Admissible .expression c → (∀ s ∈ yes, Admissible .statement s) →
      Admissible .expression (.ifThen c yes)
  | ifElse : Admissible .expression c → (∀ s ∈ yes, Admissible .statement s) →
      (∀ s ∈ no, Admissible .statement s) → Admissible .expression (.ifElse c yes no)
  | fnLit : (∀ x ∈ params, IsName x) → (∀ s ∈ body, Admissible .statement s) →
      Admissible .expression (.fnLit params body)
  | call : Admissible .expression f → (∀ a ∈ args, Admissible .expression a) →
      Admissible .expression (.call f args)

theorem WellFormed.admissible (formed : WellFormed role n) : Admissible role n := by
  induction formed with
  | program _ ih => exact .program ih
  | letStmt name _ ih => exact .letStmt name ih
  | returnStmt _ ih => exact .returnStmt ih
  | exprStmt _ ih => exact .exprStmt ih
  | ident name => exact .ident name
  | int least most => exact .int (by omega) (by omega)
  | bool => exact .bool
  | unary listed _ ih => exact .unary listed ih
  | binary listed _ _ left right => exact .binary listed left right
  | ifThen _ _ condition yes => exact .ifThen condition yes
  | ifElse _ _ _ condition yes no => exact .ifElse condition yes no
  | fnLit names _ body => exact .fnLit names body
  | call _ _ callee args => exact .call callee args

/-- An admissible tree holds no unknown kind. -/
theorem Admissible.known (formed : Admissible role n) : n.unknown? = none := by
  induction formed with
  | program _ ih => exact Node.unknownIn?_eq_none ih
  | block _ ih => exact Node.unknownIn?_eq_none ih
  | letStmt _ _ ih => exact ih
  | returnStmt _ ih => exact ih
  | exprStmt _ ih => exact ih
  | ident => rfl
  | int => rfl
  | bool => rfl
  | unary _ _ ih => exact ih
  | binary _ _ _ left right => rw [Node.unknown?, left, right]; rfl
  | ifThen _ _ condition yes =>
    rw [Node.unknown?, condition, Node.unknownIn?_eq_none yes]
    rfl
  | ifElse _ _ _ condition yes no =>
    rw [Node.unknown?, condition, Node.unknownIn?_eq_none yes, Node.unknownIn?_eq_none no]
    rfl
  | fnLit _ _ body => exact Node.unknownIn?_eq_none body
  | call _ _ callee args =>
    rw [Node.unknown?, callee, Node.unknownIn?_eq_none args]
    rfl

theorem WellFormed.known (formed : WellFormed role n) : n.unknown? = none :=
  formed.admissible.known

end Monkey
