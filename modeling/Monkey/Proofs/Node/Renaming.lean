import Mathlib.Data.List.Forall2
import Monkey.Node.Basic

/-! Names in trees, replacing them, and trees that differ only in their names. -/
namespace Monkey

/-- Which name of one side stands for which name of the other. -/
abbrev Naming := Text → Text → Prop

/-- The name `y` in place of the name `x`. -/
def replacing (x y : Text) (z : Text) : Text := if z = x then y else z

namespace Node

mutual

/-- The parameters, identifiers and let names of a tree. -/
def names : Node → List Text
  | program body => namesIn body
  | block body => namesIn body
  | letStmt name value => name :: names value
  | returnStmt value => names value
  | exprStmt expr => names expr
  | ident name => [name]
  | int _ => []
  | bool _ => []
  | unary _ operand => names operand
  | binary _ left right => names left ++ names right
  | ifThen condition consequence => names condition ++ namesIn consequence
  | ifElse condition consequence alternative =>
    names condition ++ (namesIn consequence ++ namesIn alternative)
  | fnLit params body => params ++ namesIn body
  | call callee args => names callee ++ namesIn args
  | unknown _ => []

def namesIn : List Node → List Text
  | [] => []
  | n :: ns => names n ++ namesIn ns

end

mutual

/-- The tree with every name changed. -/
def rename (f : Text → Text) : Node → Node
  | program body => program (renameIn f body)
  | block body => block (renameIn f body)
  | letStmt name value => letStmt (f name) (rename f value)
  | returnStmt value => returnStmt (rename f value)
  | exprStmt expr => exprStmt (rename f expr)
  | ident name => ident (f name)
  | int value => int value
  | bool value => bool value
  | unary operator operand => unary operator (rename f operand)
  | binary operator left right => binary operator (rename f left) (rename f right)
  | ifThen condition consequence => ifThen (rename f condition) (renameIn f consequence)
  | ifElse condition consequence alternative =>
    ifElse (rename f condition) (renameIn f consequence) (renameIn f alternative)
  | fnLit params body => fnLit (params.map f) (renameIn f body)
  | call callee args => call (rename f callee) (renameIn f args)
  | unknown kind => unknown kind

def renameIn (f : Text → Text) : List Node → List Node
  | [] => []
  | n :: ns => rename f n :: renameIn f ns

end

/-- Trees of the same shape whose names stand for each other. -/
inductive Alike (N : Naming) : Node → Node → Prop where
  | program : List.Forall₂ (Alike N) body body' → Alike N (program body) (program body')
  | block : List.Forall₂ (Alike N) body body' → Alike N (block body) (block body')
  | letStmt : N a b → Alike N v w → Alike N (letStmt a v) (letStmt b w)
  | returnStmt : Alike N v w → Alike N (returnStmt v) (returnStmt w)
  | exprStmt : Alike N v w → Alike N (exprStmt v) (exprStmt w)
  | ident : N a b → Alike N (ident a) (ident b)
  | int (k : Int) : Alike N (int k) (int k)
  | bool (b : Bool) : Alike N (bool b) (bool b)
  | unary (operator : Text) : Alike N v w → Alike N (unary operator v) (unary operator w)
  | binary (operator : Text) : Alike N l l' → Alike N r r' →
      Alike N (binary operator l r) (binary operator l' r')
  | ifThen : Alike N c c' → List.Forall₂ (Alike N) yes yes' →
      Alike N (ifThen c yes) (ifThen c' yes')
  | ifElse : Alike N c c' → List.Forall₂ (Alike N) yes yes' → List.Forall₂ (Alike N) no no' →
      Alike N (ifElse c yes no) (ifElse c' yes' no')
  | fnLit : List.Forall₂ N params params' → List.Forall₂ (Alike N) body body' →
      Alike N (fnLit params body) (fnLit params' body')
  | call : Alike N f f' → List.Forall₂ (Alike N) args args' →
      Alike N (call f args) (call f' args')
  | unknown (kind : Text) : Alike N (unknown kind) (unknown kind)

theorem forall₂_map {N : Naming} {f : Text → Text} (xs : List Text)
    (each : ∀ a ∈ xs, N a (f a)) : List.Forall₂ N xs (xs.map f) :=
  List.forall₂_map_right_iff.mpr (List.forall₂_same.mpr each)

mutual

theorem alike_rename {N : Naming} {f : Text → Text} :
    (n : Node) → (∀ a ∈ n.names, N a (f a)) → Alike N n (n.rename f)
  | program body, each => .program (alike_renameIn body each)
  | block body, each => .block (alike_renameIn body each)
  | letStmt _ value, each =>
    have ⟨here, below⟩ := List.forall_mem_cons.mp each
    .letStmt here (alike_rename value below)
  | returnStmt value, each => .returnStmt (alike_rename value each)
  | exprStmt expr, each => .exprStmt (alike_rename expr each)
  | ident name, each => .ident (each name List.mem_cons_self)
  | int k, _ => .int k
  | bool b, _ => .bool b
  | unary operator operand, each => .unary operator (alike_rename operand each)
  | binary operator left right, each =>
    have ⟨left', right'⟩ := List.forall_mem_append.mp each
    .binary operator (alike_rename left left') (alike_rename right right')
  | ifThen condition consequence, each =>
    have ⟨condition', consequence'⟩ := List.forall_mem_append.mp each
    .ifThen (alike_rename condition condition') (alike_renameIn consequence consequence')
  | ifElse condition consequence alternative, each =>
    have ⟨condition', branches⟩ := List.forall_mem_append.mp each
    have ⟨consequence', alternative'⟩ := List.forall_mem_append.mp branches
    .ifElse (alike_rename condition condition') (alike_renameIn consequence consequence')
      (alike_renameIn alternative alternative')
  | fnLit params body, each =>
    have ⟨params', body'⟩ := List.forall_mem_append.mp each
    .fnLit (forall₂_map params params') (alike_renameIn body body')
  | call callee args, each =>
    have ⟨callee', args'⟩ := List.forall_mem_append.mp each
    .call (alike_rename callee callee') (alike_renameIn args args')
  | unknown kind, _ => .unknown kind

theorem alike_renameIn {N : Naming} {f : Text → Text} :
    (ns : List Node) → (∀ a ∈ namesIn ns, N a (f a)) →
      List.Forall₂ (Alike N) ns (renameIn f ns)
  | [], _ => .nil
  | n :: ns, each =>
    have ⟨first, rest⟩ := List.forall_mem_append.mp each
    .cons (alike_rename n first) (alike_renameIn ns rest)

end

mutual

theorem rename_id : (n : Node) → n.rename id = n
  | program body => by rw [rename, renameIn_id body]
  | block body => by rw [rename, renameIn_id body]
  | letStmt _ value => by rw [rename, rename_id value, id]
  | returnStmt value => by rw [rename, rename_id value]
  | exprStmt expr => by rw [rename, rename_id expr]
  | ident _ => rfl
  | int _ => rfl
  | bool _ => rfl
  | unary _ operand => by rw [rename, rename_id operand]
  | binary _ left right => by rw [rename, rename_id left, rename_id right]
  | ifThen condition consequence => by
    rw [rename, rename_id condition, renameIn_id consequence]
  | ifElse condition consequence alternative => by
    rw [rename, rename_id condition, renameIn_id consequence, renameIn_id alternative]
  | fnLit params body => by rw [rename, List.map_id, renameIn_id body]
  | call callee args => by rw [rename, rename_id callee, renameIn_id args]
  | unknown _ => rfl

theorem renameIn_id : (ns : List Node) → renameIn id ns = ns
  | [] => rfl
  | n :: ns => by rw [renameIn, rename_id n, renameIn_id ns]

end

/-- Trees whose names stand for themselves are like themselves. -/
theorem alike_self {N : Naming} (ns : List Node) (each : ∀ a ∈ namesIn ns, N a a) :
    List.Forall₂ (Alike N) ns ns := by
  have renamed := alike_renameIn (f := id) ns each
  rwa [renameIn_id] at renamed

theorem forall₂_eq {N : Naming} (same : ∀ a b, N a b → a = b) (pairs : List.Forall₂ N xs ys) :
    xs = ys := by
  have equal := pairs.imp same
  rwa [List.forall₂_eq_eq_eq] at equal

mutual

theorem Alike.eq {N : Naming} (same : ∀ a b, N a b → a = b) :
    {n m : Node} → Alike N n m → n = m
  | _, _, .program body => by rw [alike_eqIn same body]
  | _, _, .block body => by rw [alike_eqIn same body]
  | _, _, .letStmt name value => by rw [same _ _ name, Alike.eq same value]
  | _, _, .returnStmt value => by rw [Alike.eq same value]
  | _, _, .exprStmt expr => by rw [Alike.eq same expr]
  | _, _, .ident name => by rw [same _ _ name]
  | _, _, .int _ => rfl
  | _, _, .bool _ => rfl
  | _, _, .unary _ operand => by rw [Alike.eq same operand]
  | _, _, .binary _ left right => by rw [Alike.eq same left, Alike.eq same right]
  | _, _, .ifThen condition yes => by rw [Alike.eq same condition, alike_eqIn same yes]
  | _, _, .ifElse condition yes no => by
    rw [Alike.eq same condition, alike_eqIn same yes, alike_eqIn same no]
  | _, _, .fnLit params body => by
    rw [forall₂_eq same params, alike_eqIn same body]
  | _, _, .call callee args => by rw [Alike.eq same callee, alike_eqIn same args]
  | _, _, .unknown _ => rfl

theorem alike_eqIn {N : Naming} (same : ∀ a b, N a b → a = b) :
    {ns ms : List Node} → List.Forall₂ (Alike N) ns ms → ns = ms
  | _, _, .nil => rfl
  | _, _, .cons first rest => by rw [Alike.eq same first, alike_eqIn same rest]

end

end Node
end Monkey
