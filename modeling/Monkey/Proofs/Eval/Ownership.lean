import Monkey.Proofs.Eval.Footprint

/-! What a program binds. In the frame that it is evaluated in, a program adds names behind those
that are there and changes values, but only for the names of its own `let` statements. Those inside
a function literal are not its own: they run in the frame of a call. -/
namespace Monkey

namespace Node

mutual

/-- The names of the `let` statements of a tree that are outside of its function literals. -/
def lets : Node → List Text
  | program body => letsIn body
  | block body => letsIn body
  | letStmt name value => name :: lets value
  | returnStmt value => lets value
  | exprStmt expr => lets expr
  | ident _ => []
  | int _ => []
  | bool _ => []
  | unary _ operand => lets operand
  | binary _ left right => lets left ++ lets right
  | ifThen condition consequence => lets condition ++ letsIn consequence
  | ifElse condition consequence alternative =>
    lets condition ++ (letsIn consequence ++ letsIn alternative)
  | fnLit _ _ => []
  | call callee args => lets callee ++ letsIn args
  | unknown _ => []

def letsIn : List Node → List Text
  | [] => []
  | n :: ns => lets n ++ letsIn ns

end

theorem lets_subset_letsIn {ns : List Node} (member : n ∈ ns) : n.lets ⊆ letsIn ns := by
  induction ns with
  | nil => cases member
  | cons m ns ih =>
    rw [letsIn]
    rcases List.mem_cons.mp member with rfl | member
    · exact List.subset_append_left _ _
    · exact List.subset_append_of_subset_right _ (ih member)

end Node

/-- Names are added behind those that are bound already, each of them once, and only the names in
`owned` are added or get other values. -/
structure Bindings.Grown (owned : List Text) (bs bs' : Bindings) : Prop where
  names : ∃ added, bs'.names = bs.names ++ added ∧ added.Nodup ∧
    ∀ x ∈ added, x ∉ bs.names ∧ x ∈ owned
  values : ∀ x, bs'.get? x ≠ bs.get? x → x ∈ owned

namespace Bindings.Grown

variable {owned : List Text} {bs bs' : Bindings}

theorem refl (owned : List Text) (bs : Bindings) : Grown owned bs bs :=
  ⟨⟨[], by simp, .nil, nofun⟩, fun _ other => absurd rfl other⟩

theorem trans (first : Grown owned bs middle) (second : Grown owned middle bs') :
    Grown owned bs bs' := by
  obtain ⟨⟨added, same, once, new⟩, values⟩ := first
  obtain ⟨⟨added', same', once', new'⟩, values'⟩ := second
  rw [same] at same' new'
  constructor
  · refine ⟨added ++ added', by rw [same', List.append_assoc], ?_, ?_⟩
    · refine List.nodup_append.mpr ⟨once, once', ?_⟩
      rintro x early _ late rfl
      exact (new' x late).1 (List.mem_append_right _ early)
    · intro x member
      rcases List.mem_append.mp member with early | late
      · exact new x early
      · obtain ⟨free, own⟩ := new' x late
        exact ⟨fun bound => free (List.mem_append_left _ bound), own⟩
  · intro x other
    by_cases kept : middle.get? x = bs.get? x
    · exact values' x (kept ▸ other)
    · exact values x kept

theorem mono (grown : Grown owned bs bs') (sub : owned ⊆ more) : Grown more bs bs' := by
  obtain ⟨⟨added, same, once, new⟩, values⟩ := grown
  refine ⟨⟨added, same, once, fun x member => ?_⟩, fun x other => sub (values x other)⟩
  exact (new x member).imp_right fun own => sub own

/-- A definition keeps the place of a name that is bound, and puts any other name last. -/
theorem insert (bs : Bindings) (v : Value) (own : name ∈ owned) :
    Grown owned bs (bs.insert name v) := by
  constructor
  · rw [names_insert]
    split
    next => exact ⟨[], by simp, .nil, nofun⟩
    next free =>
      refine ⟨[name], rfl, List.pairwise_singleton _ name, fun x single => ?_⟩
      rw [List.mem_singleton.mp single]
      exact ⟨free, own⟩
  · intro x other
    rw [get?_insert] at other
    by_cases same : name = x
    · exact same ▸ own
    · rw [if_neg same] at other
      exact absurd rfl other

end Bindings.Grown

namespace Store

/-- The frame `e` is still there, with bindings that grew by the names in `owned`. -/
def GrownIn (e : FrameId) (owned : List Text) (s s' : Store) : Prop :=
  ∀ f, s.frame? e = some f → ∃ f', s'.frame? e = some f' ∧ f.bindings.Grown owned f'.bindings

instance : IsPreorder Store (GrownIn e owned) where
  refl _ f found := ⟨f, found, .refl owned f.bindings⟩
  trans _ _ _ first second f found := by
    obtain ⟨g, found, grown⟩ := first f found
    obtain ⟨h, found, grown'⟩ := second g found
    exact ⟨h, found, grown.trans grown'⟩

variable {s s' : Store} {owned : List Text}

theorem KeptIn.grownIn (kept : s.KeptIn s') (e : FrameId) : s.GrownIn e owned s' :=
  fun f found => ⟨f, kept e f found, .refl owned f.bindings⟩

theorem GrownIn.mono (grown : s.GrownIn e owned s') (sub : owned ⊆ more) : s.GrownIn e more s' := by
  intro f found
  obtain ⟨f', found, grown⟩ := grown f found
  exact ⟨f', found, grown.mono sub⟩

theorem grownIn_define (s : Store) (e : FrameId) (v : Value) (own : name ∈ owned) :
    s.GrownIn e owned (s.define e name v) := by
  intro f found
  rw [frame?_define, if_pos rfl, found]
  exact ⟨_, rfl, .insert f.bindings v own⟩

end Store

namespace Eval

section Nodes

variable {eval : Node → FrameId → Eval Value}
  (parts : ∀ n e, Moves (Store.GrownIn e n.lets) (eval n e))
  (calls : ∀ f args, Moves Store.KeptIn (apply eval f args))

include parts in
theorem grown_part {n : Node} (e : FrameId) (sub : n.lets ⊆ owned) :
    Moves (Store.GrownIn e owned) (eval n e) :=
  fun s => (parts n e s).mono sub

include parts in
theorem grown_body {body : List Node} (e : FrameId) (sub : Node.letsIn body ⊆ owned) :
    Moves (Store.GrownIn e owned) (block (eval · e) body) :=
  .block fun _ member => grown_part parts e fun _ own => sub (Node.lets_subset_letsIn member own)

include calls in
theorem grown_call (e : FrameId) (callee : Value) (args : List Value) :
    Moves (Store.GrownIn e owned) (call eval callee args) := by
  cases callee with
  | function f => exact fun s => (calls f args s).grownIn e
  | _ => exact .pure _

include parts calls in
/-- Only a `let` statement defines a name, and it is the one that it names. -/
theorem grown_step (n : Node) (e : FrameId) : Moves (Store.GrownIn e n.lets) (step eval n e) := by
  have part {m : Node} (sub : m.lets ⊆ n.lets) : Moves (Store.GrownIn e n.lets) (eval m e) :=
    grown_part parts e sub
  have body {ms : List Node} (sub : Node.letsIn ms ⊆ n.lets) :
      Moves (Store.GrownIn e n.lets) (block (eval · e) ms) := grown_body parts e sub
  cases n with
  | program ms => exact (body (List.Subset.refl _)).bind fun _ => .pure _
  | block ms => exact body (List.Subset.refl _)
  | letStmt name value =>
    refine (part (List.subset_cons_self _ _)).onValue fun v => ?_
    exact Moves.bind (fun s => s.grownIn_define e v List.mem_cons_self) fun _ => .pure _
  | returnStmt value => exact (parts value e).onValue fun _ => .pure _
  | exprStmt expr => exact parts expr e
  | ident name => exact fun s => refl_of (Store.GrownIn e _) s
  | int value => exact .pure _
  | bool value => exact .pure _
  | unary operator operand => exact (parts operand e).onValue fun _ => .pure _
  | binary operator left right =>
    refine (part (List.subset_append_left _ _)).onValue fun l => ?_
    refine (part (List.subset_append_right _ _)).onValue fun r => ?_
    exact .binary operator left right l r
  | ifThen condition consequence =>
    refine (part (List.subset_append_left _ _)).onValue fun v => ?_
    by_cases truthy : v.isTruthy = true
    · simp only [if_pos truthy]
      exact body (List.subset_append_right _ _)
    · simp only [if_neg truthy]
      exact .pure _
  | ifElse condition consequence alternative =>
    refine (part (List.subset_append_left _ _)).onValue fun v => body ?_
    apply List.subset_append_of_subset_right
    split
    · exact List.subset_append_left _ _
    · exact List.subset_append_right _ _
  | fnLit params ms => exact fun s f found => ⟨f, found, .refl _ f.bindings⟩
  | call callee args =>
    refine (part (List.subset_append_left _ _)).onValue fun f => ?_
    refine .arguments (fun m member => part ?_) (grown_call calls e f)
    exact List.subset_append_of_subset_right _ (Node.lets_subset_letsIn member)
  | unknown kind => exact .fail _

end Nodes

theorem grown_node (depth : Nat) (n : Node) (e : FrameId) :
    Moves (Store.GrownIn e n.lets) (node depth n e) := by
  induction depth generalizing n e with
  | zero => exact .fail _
  | succ depth ih => exact grown_step ih (keptIn_apply (keptBut_node depth)) n e

theorem grown_program (depth : Nat) (body : List Node) (e : FrameId) :
    Moves (Store.GrownIn e (Node.letsIn body)) (evaluateProgram depth body e) :=
  (grown_body (grown_node depth) e (List.Subset.refl _)).bind fun _ => .pure _

end Eval

/-- However a program ends, the names that were bound in its frame stay where they are, new ones
come behind them, each once, and only the names of its own `let` statements are new or have other
values. -/
theorem evaluateProgram_binds_own_lets (depth : Nat) (body : List Node) {s : Store} {e : FrameId}
    (inside : e < s.frames.size) :
    ∃ s', s' = (evaluateProgram depth body e).after s ∧
      (∃ added, (s'.bindings e).names = (s.bindings e).names ++ added ∧ added.Nodup ∧
        ∀ x ∈ added, x ∉ (s.bindings e).names ∧ x ∈ Node.letsIn body) ∧
      ∀ x, (s'.bindings e).get? x ≠ (s.bindings e).get? x → x ∈ Node.letsIn body := by
  have found : s.frame? e = some s.frames[e] := Array.getElem?_eq_getElem inside
  obtain ⟨f', found', grown⟩ := Eval.grown_program depth body e s _ found
  refine ⟨_, rfl, ?_⟩
  rw [Store.bindings_of_frame? found, Store.bindings_of_frame? found']
  exact ⟨grown.names, grown.values⟩

/-- A frame with an integer and a function that has `let` statements of its own. -/
def sharedNames : Store :=
  ⟨#[⟨[(utf16 "a", .int 1), (utf16 "f", .function ⟨[], [.letStmt (utf16 "a") (.int 2),
    .letStmt (utf16 "z") (.int 3)], 0, 0⟩)], none⟩], 1⟩

/-- The program `let b = if (let a = 5) { f() }; let g = fn() { let y = 6 }; let c = 1 / 0`, in
which the first `let` statement holds another one. -/
def nestedLets : List Node :=
  [.letStmt (utf16 "b") (.ifThen (.letStmt (utf16 "a") (.int 5))
      [.exprStmt (.call (.ident (utf16 "f")) [])]),
    .letStmt (utf16 "g") (.fnLit [] [.letStmt (utf16 "y") (.int 6)]),
    .letStmt (utf16 "c") (.binary (utf16 "/") (.int 1) (.int 0))]

theorem evaluateProgram_binds_own_lets_nested : 0 < sharedNames.frames.size ∧
    Node.letsIn nestedLets = ["b", "a", "g", "c"].map utf16 ∧
    ∃ s', s' = (evaluateProgram 6 nestedLets 0).after sharedNames ∧
      (s'.bindings 0).names = ["a", "f", "b", "g"].map utf16 ∧
      ∀ x, (s'.bindings 0).get? x ≠ (sharedNames.bindings 0).get? x →
        x ∈ ["b", "a", "g", "c"].map utf16 := by
  have inside : 0 < sharedNames.frames.size := by decide
  have own : Node.letsIn nestedLets = ["b", "a", "g", "c"].map utf16 := by decide +kernel
  have names : (((evaluateProgram 6 nestedLets 0).after sharedNames).bindings 0).names =
      ["a", "f", "b", "g"].map utf16 := by decide +kernel
  obtain ⟨_, rfl, -, values⟩ := evaluateProgram_binds_own_lets 6 nestedLets inside
  rw [own] at values
  exact ⟨inside, own, _, rfl, names, values⟩

end Monkey
