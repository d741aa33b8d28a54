import Mathlib.Data.List.Forall2
import Monkey.Node.Basic

/-! Trees that differ in how they write bare blocks and negative integers. A bare block may be a
conditional that always runs, and a negative integer may be a minus sign before its opposite; the
minus sign then stands before all the calls that the integer is the head of. -/
namespace Monkey

/-- Whether trees stand for the same value, or one for the opposite of the other. -/
inductive Sense where
  | same | opposite

namespace Node

/-- The second tree is another spelling of the first, or of its opposite. A call of an integer
gives `null`, which is its own opposite. -/
inductive Respelled : Sense → Node → Node → Prop where
  | letStmt (name : Text) : Respelled .same e e' → Respelled .same (letStmt name e) (letStmt name e')
  | returnStmt : Respelled .same e e' → Respelled .same (returnStmt e) (returnStmt e')
  | exprStmt : Respelled .same e e' → Respelled .same (exprStmt e) (exprStmt e')
  | ident (name : Text) : Respelled .same (ident name) (ident name)
  | int (v : Int) : Respelled .same (int v) (int v)
  | bool (b : Bool) : Respelled .same (bool b) (bool b)
  | unary (operator : Text) : Respelled .same e e' →
      Respelled .same (unary operator e) (unary operator e')
  | binary (operator : Text) : Respelled .same l l' → Respelled .same r r' →
      Respelled .same (binary operator l r) (binary operator l' r')
  | ifThen : Respelled .same c c' → List.Forall₂ (Respelled .same) yes yes' →
      Respelled .same (ifThen c yes) (ifThen c' yes')
  | ifElse : Respelled .same c c' → List.Forall₂ (Respelled .same) yes yes' →
      List.Forall₂ (Respelled .same) no no' → Respelled .same (ifElse c yes no) (ifElse c' yes' no')
  | fnLit (params : List Text) : List.Forall₂ (Respelled .same) body body' →
      Respelled .same (fnLit params body) (fnLit params body')
  | call : Respelled σ f f' → List.Forall₂ (Respelled .same) args args' →
      Respelled σ (call f args) (call f' args')
  | blockAsIf : List.Forall₂ (Respelled .same) body body' →
      Respelled .same (block body) (exprStmt (ifThen (bool true) body'))
  | ifAsBlock : List.Forall₂ (Respelled .same) body body' →
      Respelled .same (exprStmt (ifThen (bool true) body)) (block body')
  | opposite {v w : Int} : v + w = 0 → -9223372036854775808 < v → v < 9223372036854775808 →
      Respelled .opposite (int v) (int w)
  | signed : Respelled .opposite e e' → Respelled .same e (unary (utf16 "-") e')
  | unsigned : Respelled .opposite e e' → Respelled .same (unary (utf16 "-") e) e'

mutual

theorem Respelled.symm : {n m : Node} → Respelled σ n m → Respelled σ m n
  | _, _, .letStmt name value => .letStmt name value.symm
  | _, _, .returnStmt value => .returnStmt value.symm
  | _, _, .exprStmt expr => .exprStmt expr.symm
  | _, _, .ident name => .ident name
  | _, _, .int v => .int v
  | _, _, .bool b => .bool b
  | _, _, .unary operator operand => .unary operator operand.symm
  | _, _, .binary operator left right => .binary operator left.symm right.symm
  | _, _, .ifThen condition yes => .ifThen condition.symm (respelled_symmIn yes)
  | _, _, .ifElse condition yes no =>
    .ifElse condition.symm (respelled_symmIn yes) (respelled_symmIn no)
  | _, _, .fnLit params body => .fnLit params (respelled_symmIn body)
  | _, _, .call callee args => .call callee.symm (respelled_symmIn args)
  | _, _, .blockAsIf body => .ifAsBlock (respelled_symmIn body)
  | _, _, .ifAsBlock body => .blockAsIf (respelled_symmIn body)
  | _, _, .opposite zero low high => .opposite (by omega) (by omega) (by omega)
  | _, _, .signed operand => .unsigned operand.symm
  | _, _, .unsigned operand => .signed operand.symm
termination_by n m _ => sizeOf n + sizeOf m

theorem respelled_symmIn : {ns ms : List Node} → List.Forall₂ (Respelled .same) ns ms →
    List.Forall₂ (Respelled .same) ms ns
  | _, _, .nil => .nil
  | _, _, .cons first rest => .cons first.symm (respelled_symmIn rest)
termination_by ns ms _ => sizeOf ns + sizeOf ms

end

end Node
end Monkey
