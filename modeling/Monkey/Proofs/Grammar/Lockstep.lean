import Mathlib.Data.List.Forall2
import Monkey.Proofs.Grammar.Inheritance

/-! Parsers side by side. Two runs go in lockstep while the tokens they look at say the same: then
they take the same branches, build the same trees and report the same problems. The first run may
be left alone once it has gone astray, and it may have less fuel than the second. The forms of the
grammar are gone through once, for every notion of tokens that correspond. -/
namespace Monkey

section Likeness

variable (T : Token → Token → Prop)

/-- The same problem. A block that is not closed was opened at corresponding tokens. -/
inductive Problem.Alike : Problem → Problem → Prop where
  | expected (kind : TokenKind) : Alike (.expected kind) (.expected kind)
  | noOperand : Alike .noOperand .noOperand
  | integerTooLarge : Alike .integerTooLarge .integerTooLarge
  | unclosedBlock : T x y → Alike (.unclosedBlock x.start) (.unclosedBlock y.start)
  | badParameter : Alike .badParameter .badParameter

/-- The same problem at corresponding tokens. -/
structure Diagnostic.Alike (d d' : Diagnostic) : Prop where
  problem : Problem.Alike T d.problem d'.problem
  found : T d.found d'.found

end Likeness

namespace ParserState

variable (s : ParserState)

def advance : ParserState := { s with stream := s.stream.advance }

def report (d : Diagnostic) : ParserState := { s with diagnostics := s.diagnostics ++ [d] }

def giveUp : ParserState := { s with omitted := s.omitted + 1 }

@[simp] theorem tokens_advance : s.advance.stream.tokens = s.stream.tokens.tail := rfl

end ParserState

/-- When two runs correspond. While they are near, the current tokens correspond, and unless these
are semicolons the next ones do too. A run that is lost stands at the end of its tokens, and the
report of an open block there tells that it has gone astray. -/
structure Lockstep where
  token : Token → Token → Prop
  kind : token x y → x.kind = y.kind
  literal : token x y → x.literal = y.literal
  near : ParserState → ParserState → Prop
  ahead : ParserState → ParserState → Prop
  lost : ParserState → Prop
  stray : ParserState → Prop
  near_of_ahead : ahead s t → near s t
  ahead_of_near : near s t → s.stream.current.kind ≠ .semicolon → ahead s t
  current : near s t → token s.stream.current t.stream.current
  peek : ahead s t → token s.stream.peek t.stream.peek
  advance : ahead s t → near s.advance t.advance
  leave : near s t → near s.advance t.advance ∨ lost s.advance
  report : near s t → Diagnostic.Alike token d d' → near (s.report d) (t.report d')
  giveUp : near s t → near s.giveUp t.giveUp
  lost_end : lost s → s.stream.current.kind = .eof
  lost_report (opening : Cursor) :
    lost s → stray (s.report ⟨.unclosedBlock opening, s.stream.current⟩)
  stray_giveUp : stray s → stray s.giveUp
  stray_advance : stray s → lost s.advance

theorem Lockstep.ahead_of_kind (C : Lockstep) (near : C.near s t)
    (kind : s.stream.current.kind = k) (other : k ≠ .semicolon) : C.ahead s t :=
  C.ahead_of_near near (kind ▸ other)

namespace Parser

variable (C : Lockstep)

/-- Unless the first run breaks off or goes astray, the second one does the same: both end well
with one result and states that `post` relates, or both give up. -/
def Follows (p q : Parser α) (s t : ParserState)
    (post : ParserState → ParserState → Prop) : Prop :=
  match p s with
  | .ok a s' => ∃ t', q t = .ok a t' ∧ post s' t'
  | .error .recorded s' => C.stray s' ∨ ∃ t', q t = .error .recorded t' ∧ C.near s' t'
  | .error (.fault _) _ => True

/-- A run that is lost breaks off or goes astray. -/
def Strays (p : Parser α) (s : ParserState) : Prop :=
  match p s with
  | .ok _ _ => False
  | .error .recorded s' => C.stray s'
  | .error (.fault _) _ => True

variable {C} {s t : ParserState} {post : ParserState → ParserState → Prop}

section Rules

theorem Follows.bind {p q : Parser α} {k k' : α → Parser β}
    {middle : ParserState → ParserState → Prop} (first : Follows C p q s t middle)
    (next : ∀ a s' t', middle s' t' → Follows C (k a) (k' a) s' t' post) :
    Follows C (p >>= k) (q >>= k') s t post := by
  unfold Follows at first
  cases run : p s with
  | ok a s' =>
    rw [run] at first
    obtain ⟨t', run', related⟩ := first
    have rest := next a s' t' related
    unfold Follows at rest ⊢
    rwa [run_then run, run_then run']
  | error e s' =>
    rw [run] at first
    unfold Follows
    rw [run_bind, run]
    cases e with
    | fault f => trivial
    | recorded =>
      refine first.imp_right ?_
      rintro ⟨t', run', related⟩
      exact ⟨t', by rw [run_bind, run'], related⟩

theorem follows_pure (a : α) (related : post s t) : Follows C (pure a) (pure a) s t post :=
  ⟨t, rfl, related⟩

theorem follows_fail (f : ParseFault) (q : Parser α) : Follows C (fail f) q s t post := trivial

theorem follows_reject (near : C.near s t) (alike : Problem.Alike C.token problem problem')
    (found : C.token x y) :
    Follows C (reject problem x : Parser α) (reject problem' y) s t post :=
  .inr ⟨_, rfl, C.report near ⟨alike, found⟩⟩

theorem follows_ite {c c' : Prop} [Decidable c] [Decidable c'] {p p' q q' : Parser α}
    (same : c ↔ c') (yes : c → Follows C p q s t post) (no : ¬c → Follows C p' q' s t post) :
    Follows C (if c then p else p') (if c' then q else q') s t post := by
  by_cases holds : c
  · rw [if_pos holds, if_pos (same.mp holds)]
    exact yes holds
  · rw [if_neg holds, if_neg (mt same.mpr holds)]
    exact no holds

/-- A test of the kind goes the same way on both sides. -/
theorem follows_kind {x y : Token} {k : TokenKind} {p p' q q' : Parser α} (token : C.token x y)
    (yes : x.kind = k → Follows C p q s t post) (no : x.kind ≠ k → Follows C p' q' s t post) :
    Follows C (if x.kind = k then p else p') (if y.kind = k then q else q') s t post :=
  follows_ite (by rw [C.kind token]) yes no

theorem follows_current {k k' : Token → Parser α} (near : C.near s t)
    (next : C.token s.stream.current t.stream.current →
      Follows C (k s.stream.current) (k' t.stream.current) s t post) :
    Follows C (current >>= k) (current >>= k') s t post :=
  next (C.current near)

theorem follows_peek {k k' : Token → Parser α} (ahead : C.ahead s t)
    (next : C.token s.stream.peek t.stream.peek →
      Follows C (k s.stream.peek) (k' t.stream.peek) s t post) :
    Follows C (peek >>= k) (peek >>= k') s t post :=
  next (C.peek ahead)

theorem follows_advance (ahead : C.ahead s t) : Follows C advance advance s t C.near :=
  ⟨_, rfl, C.advance ahead⟩

/-- Behind a token that is no semicolon the next tokens correspond again. -/
theorem follows_advance_over (ahead : C.ahead s t) (kind : s.stream.peek.kind = k)
    (other : k ≠ .semicolon) : Follows C advance advance s t C.ahead :=
  ⟨_, rfl, C.ahead_of_kind (C.advance ahead) kind other⟩

theorem follows_expect (ahead : C.ahead s t) {kind : TokenKind} (other : kind ≠ .semicolon) :
    Follows C (expect kind) (expect kind) s t C.ahead := by
  refine follows_peek ahead fun token => follows_kind token (fun same => ?_) fun _ => ?_
  · exact follows_advance_over ahead same other
  · exact follows_reject (C.near_of_ahead ahead) (.expected kind) token

theorem follows_skipSemicolon (ahead : C.ahead s t) :
    Follows C skipSemicolon skipSemicolon s t C.near := by
  refine follows_peek ahead fun token => follows_kind token (fun _ => ?_) fun _ => ?_
  · exact follows_advance ahead
  · exact follows_pure () (C.near_of_ahead ahead)

end Rules

section Lists

variable {item item' : Parser α}
  (each : ∀ {s t}, C.near s t → Follows C item item' s t C.ahead)
include each

theorem follows_moreItems (le : n ≤ m) (ahead : C.ahead s t) :
    Follows C (moreItems item n) (moreItems item' m) s t C.ahead := by
  induction n generalizing m s t with
  | zero => exact follows_fail _ _
  | succ n ih =>
    cases m with
    | zero => cases le
    | succ m =>
      refine follows_peek ahead fun token => follows_kind token (fun comma => ?_) fun _ => ?_
      · refine (follows_advance_over ahead comma (by decide)).bind fun _ s t ahead => ?_
        refine follows_peek ahead fun token => follows_kind token (fun _ => ?_) fun _ => ?_
        · exact follows_pure [] ahead
        · refine (follows_advance ahead).bind fun _ s t near => ?_
          refine (each near).bind fun first s t ahead => ?_
          refine (ih (Nat.le_of_succ_le_succ le) ahead).bind fun rest s t ahead => ?_
          exact follows_pure _ ahead
      · exact follows_pure [] ahead

theorem follows_items (le : n ≤ m) (ahead : C.ahead s t) :
    Follows C (items item n) (items item' m) s t C.ahead := by
  refine follows_peek ahead fun token => follows_kind token (fun closing => ?_) fun _ => ?_
  · refine (follows_advance_over ahead closing (by decide)).bind fun _ s t ahead => ?_
    exact follows_pure [] ahead
  · refine (follows_advance ahead).bind fun _ s t near => ?_
    refine (each near).bind fun first s t ahead => ?_
    refine (follows_moreItems each le ahead).bind fun rest s t ahead => ?_
    refine (follows_expect ahead (by decide)).bind fun _ s t ahead => ?_
    exact follows_pure _ ahead

end Lists

theorem follows_parameter (near : C.near s t) : Follows C parameter parameter s t C.ahead := by
  refine follows_current near fun token => follows_kind token (fun ident => ?_) fun _ => ?_
  · rw [C.literal token]
    exact follows_pure _ (C.ahead_of_kind near ident (by decide))
  · exact follows_reject near .badParameter token

/-- One integer literal has one value, wherever it stands. -/
theorem follows_integerLiteral (ahead : C.ahead s t) (token : C.token x y) :
    Follows C (integerLiteral x) (integerLiteral y) s t C.ahead := by
  unfold integerLiteral
  rw [← C.literal token]
  split
  · exact follows_fail _ _
  · refine follows_ite Iff.rfl (fun _ => ?_) fun _ => ?_
    · exact follows_reject (C.near_of_ahead ahead) .integerTooLarge token
    · exact follows_pure _ ahead

/-- A statement that is given up does not stop what stands around it. -/
theorem ensures_orOmit (p : Parser α) (s : ParserState) :
    Ensures (orOmit p) s (fun _ _ => True) fun e _ => e ≠ .recorded := by
  unfold Ensures orOmit
  cases p s with
  | ok a s' => trivial
  | error e s' =>
    cases e with
    | recorded => trivial
    | fault f => nofun

/-- A statement that is given up on one side is given up on the other. -/
theorem Follows.orOmit {p q : Parser α} (first : Follows C p q s t C.near)
    (run : orOmit p s = .ok o s') :
    C.stray s' ∨ ∃ t', orOmit q t = .ok o t' ∧ C.near s' t' := by
  unfold Follows at first
  unfold Parser.orOmit at run ⊢
  split at run
  next a s' ends =>
    cases run
    rw [ends] at first
    obtain ⟨t', ends', near⟩ := first
    exact .inr ⟨t', by rw [ends'], near⟩
  next s' ends =>
    cases run
    rw [ends] at first
    rcases first with stray | ⟨t', ends', near⟩
    · exact .inl (C.stray_giveUp stray)
    · exact .inr ⟨t'.giveUp, by rw [ends']; rfl, C.giveUp near⟩
  next => cases run

section Rounds

variable {p q : Parser Node} {loop loop' : Parser (List Node)}

/-- Whatever the second run does, a first run that is lost need not be followed. -/
theorem Strays.follows (astray : Strays C loop s) (before : List Node) (q : Parser (List Node)) :
    Follows C (do let rest ← loop; return before ++ rest) q s t post := by
  unfold Strays at astray
  unfold Follows
  rw [run_bind]
  cases run : loop s with
  | ok rest s' =>
    rw [run] at astray
    exact astray.elim
  | error e s' =>
    rw [run] at astray
    cases e with
    | fault f => trivial
    | recorded => exact .inl astray

variable (further : ∀ {s t}, C.near s t → Follows C loop loop' s t post)
  (astray : ∀ {s}, C.lost s → Strays C loop s)
include further astray

/-- The loop goes on behind a statement, or the first run is lost. -/
theorem follows_leave (near : C.near s t) (before : List Node) :
    Follows C (do advance; let rest ← loop; return before ++ rest)
      (do advance; let rest ← loop'; return before ++ rest) s t post := by
  rcases C.leave near with near | lost
  · exact (further near).bind fun rest s t related => follows_pure _ related
  · exact (astray lost).follows before _ (t := t)

/-- One round of a loop of statements. -/
theorem follows_round (first : Follows C p q s t C.near) :
    Follows C
      (do let o ← orOmit p; advance; let rest ← loop; return o.toList ++ rest)
      (do let o ← orOmit q; advance; let rest ← loop'; return o.toList ++ rest) s t post := by
  have caught := ensures_orOmit p s
  unfold Ensures at caught
  unfold Follows
  cases run : orOmit p s with
  | ok o s' =>
    rw [run_then run]
    rcases first.orOmit run with stray | ⟨t', run', near⟩
    · -- an inner block was open at the end, so the loop around it is lost there too
      exact (astray (C.stray_advance stray)).follows o.toList _
    · rw [run_then run']
      exact follows_leave further astray near o.toList
  | error e s' =>
    rw [run] at caught
    rw [run_bind, run]
    cases e with
    | fault f => trivial
    | recorded => exact absurd rfl caught

end Rounds

/-- A run that is lost inside a block reports that the block is open. -/
theorem strays_blockBody {expr : Precedence → Parser Node} (opening : Cursor) (n : Nat)
    (lost : C.lost s) : Strays C (blockBody expr opening n) s := by
  cases n with
  | zero => trivial
  | succ n =>
    have ended := C.lost_end lost
    unfold Strays blockBody
    rw [run_then (run_current s), if_neg (by rw [ended]; decide), if_pos ended]
    exact C.lost_report opening lost

section Forms

variable {expr expr' : Precedence → Parser Node}
  (parts : ∀ {s t} floor, C.near s t → Follows C (expr floor) (expr' floor) s t C.ahead)
include parts

theorem follows_statement (near : C.near s t) :
    Follows C (statement expr) (statement expr') s t C.near := by
  refine follows_current near fun token => ?_
  rw [← C.kind token]
  split
  next kind =>
    have ahead := C.ahead_of_kind near kind (by decide)
    refine (follows_expect ahead (by decide)).bind fun _ s t ahead => ?_
    refine follows_current (C.near_of_ahead ahead) fun name => ?_
    refine (follows_expect ahead (by decide)).bind fun _ s t ahead => ?_
    refine (follows_advance ahead).bind fun _ s t near => ?_
    refine (parts .lowest near).bind fun value s t ahead => ?_
    refine (follows_skipSemicolon ahead).bind fun _ s t near => ?_
    rw [C.literal name]
    exact follows_pure _ near
  next kind =>
    have ahead := C.ahead_of_kind near kind (by decide)
    refine (follows_advance ahead).bind fun _ s t near => ?_
    refine (parts .lowest near).bind fun value s t ahead => ?_
    exact (follows_skipSemicolon ahead).bind fun _ s t near => follows_pure _ near
  next =>
    refine (parts .lowest near).bind fun value s t ahead => ?_
    exact (follows_skipSemicolon ahead).bind fun _ s t near => follows_pure _ near

theorem follows_blockBody (le : n ≤ m) (opening : C.token x y) (near : C.near s t) :
    Follows C (blockBody expr x.start n) (blockBody expr' y.start m) s t C.ahead := by
  induction n generalizing m s t with
  | zero => exact follows_fail _ _
  | succ n ih =>
    cases m with
    | zero => cases le
    | succ m =>
      refine follows_current near fun token => follows_kind token (fun closing => ?_) fun _ => ?_
      · exact follows_pure [] (C.ahead_of_kind near closing (by decide))
      · refine follows_kind token (fun _ => ?_) fun _ => ?_
        · exact follows_reject near (.unclosedBlock opening) token
        · exact follows_round (ih (Nat.le_of_succ_le_succ le)) (strays_blockBody x.start n)
            (follows_statement parts near)

theorem follows_block (le : n ≤ m) (ahead : C.ahead s t) :
    Follows C (block expr n) (block expr' m) s t C.ahead := by
  refine follows_current (C.near_of_ahead ahead) fun opening => ?_
  refine (follows_advance ahead).bind fun _ s t near => ?_
  exact follows_blockBody parts le opening near

theorem follows_unaryExpression (operator : Text) (ahead : C.ahead s t) :
    Follows C (unaryExpression expr operator) (unaryExpression expr' operator) s t C.ahead := by
  refine (follows_advance ahead).bind fun _ s t near => ?_
  exact (parts .unary near).bind fun operand s t ahead => follows_pure _ ahead

theorem follows_grouped (ahead : C.ahead s t) :
    Follows C (grouped expr) (grouped expr') s t C.ahead := by
  refine (follows_advance ahead).bind fun _ s t near => ?_
  refine (parts .lowest near).bind fun inner s t ahead => ?_
  exact (follows_expect ahead (by decide)).bind fun _ s t ahead => follows_pure _ ahead

theorem follows_conditional (le : n ≤ m) (ahead : C.ahead s t) :
    Follows C (conditional expr n) (conditional expr' m) s t C.ahead := by
  refine (follows_expect ahead (by decide)).bind fun _ s t ahead => ?_
  refine (follows_advance ahead).bind fun _ s t near => ?_
  refine (parts .lowest near).bind fun condition s t ahead => ?_
  refine (follows_expect ahead (by decide)).bind fun _ s t ahead => ?_
  refine (follows_expect ahead (by decide)).bind fun _ s t ahead => ?_
  refine (follows_block parts le ahead).bind fun consequence s t ahead => ?_
  refine follows_peek ahead fun token => follows_kind token (fun other => ?_) fun _ => ?_
  · refine (follows_advance_over ahead other (by decide)).bind fun _ s t ahead => ?_
    refine (follows_expect ahead (by decide)).bind fun _ s t ahead => ?_
    refine (follows_block parts le ahead).bind fun alternative s t ahead => ?_
    exact follows_pure _ ahead
  · exact follows_pure _ ahead

theorem follows_functionLiteral (le : n ≤ m) (ahead : C.ahead s t) :
    Follows C (functionLiteral expr n) (functionLiteral expr' m) s t C.ahead := by
  refine (follows_expect ahead (by decide)).bind fun _ s t ahead => ?_
  refine (follows_items follows_parameter le ahead).bind fun params s t ahead => ?_
  refine (follows_expect ahead (by decide)).bind fun _ s t ahead => ?_
  exact (follows_block parts le ahead).bind fun body s t ahead => follows_pure _ ahead

theorem follows_operand (le : n ≤ m) (near : C.near s t) :
    Follows C (operand expr n) (operand expr' m) s t C.ahead := by
  refine follows_current near fun token => ?_
  rw [← C.kind token]
  have ahead {k : TokenKind} := C.ahead_of_kind (k := k) near
  split
  next kind =>
    rw [C.literal token]
    exact follows_pure _ (ahead kind (by decide))
  next kind => exact follows_integerLiteral (ahead kind (by decide)) token
  next kind => exact follows_pure _ (ahead kind (by decide))
  next kind => exact follows_pure _ (ahead kind (by decide))
  next kind =>
    rw [C.literal token]
    exact follows_unaryExpression parts _ (ahead kind (by decide))
  next kind =>
    rw [C.literal token]
    exact follows_unaryExpression parts _ (ahead kind (by decide))
  next kind => exact follows_grouped parts (ahead kind (by decide))
  next kind => exact follows_conditional parts le (ahead kind (by decide))
  next kind => exact follows_functionLiteral parts le (ahead kind (by decide))
  next => exact follows_reject near .noOperand token

theorem follows_continuation (le : n ≤ m) (left : Node) (token : C.token x y)
    (ahead : C.ahead s t) :
    Follows C (continuation expr n left x) (continuation expr' m left y) s t C.ahead := by
  refine follows_kind token (fun _ => ?_) fun _ => ?_
  · refine (follows_items (parts .lowest) le ahead).bind fun args s t ahead => ?_
    exact follows_pure _ ahead
  · rw [C.kind token, C.literal token]
    refine (follows_advance ahead).bind fun _ s t near => ?_
    exact (parts _ near).bind fun right s t ahead => follows_pure _ ahead

/-- A semicolon binds nothing, so an operator that is taken up is no semicolon. -/
theorem follows_operators (floor : Precedence) (le : n ≤ m) (left : Node) (ahead : C.ahead s t) :
    Follows C (operators expr floor n left) (operators expr' floor m left) s t C.ahead := by
  induction n generalizing m left s t with
  | zero => exact follows_fail _ _
  | succ n ih =>
    cases m with
    | zero => cases le
    | succ m =>
      have le := Nat.le_of_succ_le_succ le
      refine follows_peek ahead fun token => follows_ite (by rw [C.kind token]) (fun binds => ?_)
        fun _ => ?_
      · have other : s.stream.peek.kind ≠ .semicolon := by
          intro semicolon
          rw [semicolon] at binds
          exact Nat.not_lt_zero _ binds
        refine (follows_advance_over ahead rfl other).bind fun _ s t ahead => ?_
        refine (follows_continuation parts le left token ahead).bind fun longer s t ahead => ?_
        exact ih le longer ahead
      · exact follows_pure left ahead

/-- Whole programs, for runs that cannot get lost. -/
theorem follows_programBody (safe : ∀ s, ¬C.lost s) (le : n ≤ m) (near : C.near s t) :
    Follows C (programBody expr n) (programBody expr' m) s t C.near := by
  induction n generalizing m s t with
  | zero => exact follows_fail _ _
  | succ n ih =>
    cases m with
    | zero => cases le
    | succ m =>
      refine follows_current near fun token => follows_kind token (fun _ => ?_) fun _ => ?_
      · exact follows_pure [] near
      · exact follows_round (ih (Nat.le_of_succ_le_succ le)) (fun lost => (safe _ lost).elim)
          (follows_statement parts near)

end Forms

theorem follows_expression (le : n ≤ m) (floor : Precedence) (near : C.near s t) :
    Follows C (expression n floor) (expression m floor) s t C.ahead := by
  -- the fuels fall together, and the first run is the one that may have none left
  induction n generalizing m floor s t with
  | zero => exact follows_fail _ _
  | succ n ih =>
    cases m with
    | zero => cases le
    | succ m =>
      have le := Nat.le_of_succ_le_succ le
      refine (follows_operand (ih le) le near).bind fun left s t ahead => ?_
      exact follows_operators (ih le) floor le left ahead

theorem ensures_programBody (expr : Precedence → Parser Node) (n : Nat) (s : ParserState) :
    Ensures (programBody expr n) s (fun _ _ => True) fun e _ => e ≠ .recorded := by
  induction n generalizing s with
  | zero => nofun
  | succ n ih =>
    unfold programBody
    rw [ensures_bind, ensures_current, ensures_ite]
    refine ⟨fun _ => trivial, fun _ => ?_⟩
    rw [ensures_bind]
    refine (ensures_orOmit _ s).weaken (fun first s' _ => ?_) fun _ _ other => other
    rw [ensures_bind, ensures_advance, ensures_bind]
    exact (ih _).weaken (fun _ _ _ => trivial) fun _ _ other => other

end Parser

/-- A parse is what the loop over the statements gives. -/
theorem parseTokens_eq_ok_iff : parseTokens ts = .ok p ↔
    ∃ s, Parser.programBody (Parser.expression (ts.length + 1)) (ts.length + 1)
      ⟨.ofTokens ts, [], 0⟩ = .ok p.statements s ∧
        s.diagnostics = p.diagnostics ∧ s.omitted = p.omitted := by
  have ends := Parser.ensures_programBody (Parser.expression (ts.length + 1)) (ts.length + 1)
    ⟨.ofTokens ts, [], 0⟩
  unfold Parser.Ensures at ends
  unfold parseTokens
  dsimp only
  constructor
  · intro run
    split at run
    next statements s loop =>
      cases run
      exact ⟨s, loop, rfl, rfl⟩
    next loop =>
      rw [loop] at ends
      exact absurd rfl ends
    next => cases run
  · rintro ⟨s, loop, diagnostics, omitted⟩
    simp only [loop, diagnostics, omitted]

theorem TokenStream.finish_ofTokens (ts : List Token) (c : Cursor) :
    (ofTokens (ts ++ [Token.endOfInput c])).finish = c := by
  simp [ofTokens, Token.endOfInput]

section Copies

variable (T : Token → Token → Prop) (before : List Diagnostic) (omitted : Nat)

/-- The second run has corresponding tokens to read, and it has added corresponding diagnostics to
those `before`. -/
structure Copies (s t : ParserState) : Prop where
  tokens : List.Forall₂ T s.stream.tokens t.stream.tokens
  finish : T (.endOfInput s.stream.finish) (.endOfInput t.stream.finish)
  diagnostics : ∃ ds, t.diagnostics = before ++ ds ∧
    List.Forall₂ (Diagnostic.Alike T) s.diagnostics ds
  omitted : t.omitted = omitted + s.omitted

namespace Copies

variable {T before omitted} (copies : Copies T before omitted s t)
include copies

theorem current : T s.stream.current t.stream.current := by
  unfold TokenStream.current
  generalize s.stream.tokens = ts, t.stream.tokens = us, copies.tokens = tokens
  cases tokens with
  | nil => exact copies.finish
  | cons first _ => exact first

theorem advance : Copies T before omitted s.advance t.advance where
  tokens := by simpa using List.forall₂_drop 1 copies.tokens
  finish := copies.finish
  diagnostics := copies.diagnostics
  omitted := copies.omitted

theorem report (alike : Diagnostic.Alike T d d') :
    Copies T before omitted (s.report d) (t.report d') where
  tokens := copies.tokens
  finish := copies.finish
  diagnostics := by
    obtain ⟨ds, same, each⟩ := copies.diagnostics
    refine ⟨ds ++ [d'], ?_, List.rel_append each (.cons alike .nil)⟩
    rw [← List.append_assoc, ← same]
    rfl
  omitted := copies.omitted

theorem giveUp : Copies T before omitted s.giveUp t.giveUp where
  tokens := copies.tokens
  finish := copies.finish
  diagnostics := copies.diagnostics
  omitted := congrArg (· + 1) copies.omitted

end Copies

/-- Runs over corresponding tokens are in lockstep from beginning to end. -/
def Lockstep.copying (kind : ∀ {x y}, T x y → x.kind = y.kind)
    (literal : ∀ {x y}, T x y → x.literal = y.literal) : Lockstep where
  token := T
  kind := kind
  literal := literal
  near := Copies T before omitted
  ahead := Copies T before omitted
  lost _ := False
  stray _ := False
  near_of_ahead ahead := ahead
  ahead_of_near near _ := near
  current near := near.current
  peek ahead := ahead.advance.current
  advance ahead := ahead.advance
  leave near := .inl near.advance
  report near alike := near.report alike
  giveUp near := near.giveUp
  lost_end := False.elim
  lost_report _ := False.elim
  stray_giveUp := False.elim
  stray_advance := False.elim

variable {T before omitted}

/-- A program that parses does so from any corresponding state, with the same statements. -/
theorem Copies.programBody (copies : Copies T before omitted s t)
    (kind : ∀ {x y}, T x y → x.kind = y.kind) (literal : ∀ {x y}, T x y → x.literal = y.literal)
    (le : n ≤ m) (le' : k ≤ l)
    (run : Parser.programBody (Parser.expression n) k s = .ok body s') :
    ∃ t', Parser.programBody (Parser.expression m) l t = .ok body t' ∧
      Copies T before omitted s' t' := by
  let C := Lockstep.copying T before omitted kind literal
  have follows := Parser.follows_programBody (C := C) (Parser.follows_expression le)
    (fun _ => False.elim) le' copies
  unfold Parser.Follows at follows
  rwa [run] at follows

end Copies
end Monkey
