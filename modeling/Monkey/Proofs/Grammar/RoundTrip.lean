import Mathlib.Data.List.Forall2
import Monkey.Proofs.Grammar.Outcome
import Monkey.Proofs.Grammar.Precedence
import Monkey.Value.Printer

/-! Printing and parsing are inverse on well-formed programs. The text of a tree is followed
piece by piece: each piece reads as its tokens in front of any text that cannot prolong its
last one, and the tokens of all pieces spell the tree. -/
namespace Monkey

/-- No condition on what follows. -/
def Anything (_ : Text) : Prop := True

section Pieces

/-- The pieces of one token between the parts of a tree. -/
inductive Piece : String → TokenKind → Prop where
  | lparen : Piece "(" .lparen
  | rparen : Piece ")" .rparen
  | headEnd : Piece ") " .rparen
  | lbrace : Piece "\x7b " .lbrace
  | rbrace : Piece " \x7d" .rbrace
  | comma : Piece ", " .comma
  | semicolon : Piece "; " .semicolon
  | assign : Piece " = " .assign
  | letWord : Piece "let " .letWord
  | returnWord : Piece "return " .returnWord
  | elseWord : Piece " else " .elseWord

theorem lexes_piece (piece : Piece s kind) :
    Lexes Anything (utf16 s) fun ts => ∃ x : Mark kind, ts = [x.1] := by
  intro c rest _
  cases piece with
  | lparen => exact ⟨_, _, .token rfl rfl rfl .done, ⟨_, rfl⟩, rfl⟩
  | rparen => exact ⟨_, _, .token rfl rfl rfl .done, ⟨_, rfl⟩, rfl⟩
  | headEnd => exact ⟨_, _, .token rfl rfl rfl (.space rfl .done), ⟨_, rfl⟩, rfl⟩
  | lbrace => exact ⟨_, _, .token rfl rfl rfl (.space rfl .done), ⟨_, rfl⟩, rfl⟩
  | rbrace => exact ⟨_, _, .space rfl (.token rfl rfl rfl .done), ⟨_, rfl⟩, rfl⟩
  | comma => exact ⟨_, _, .token rfl rfl rfl (.space rfl .done), ⟨_, rfl⟩, rfl⟩
  | semicolon => exact ⟨_, _, .token rfl rfl rfl (.space rfl .done), ⟨_, rfl⟩, rfl⟩
  | assign => exact ⟨_, _, .space rfl (.token rfl rfl rfl (.space rfl .done)), ⟨_, rfl⟩, rfl⟩
  | letWord => exact ⟨_, _, .token rfl rfl rfl (.space rfl .done), ⟨_, rfl⟩, rfl⟩
  | returnWord => exact ⟨_, _, .token rfl rfl rfl (.space rfl .done), ⟨_, rfl⟩, rfl⟩
  | elseWord => exact ⟨_, _, .space rfl (.token rfl rfl rfl (.space rfl .done)), ⟨_, rfl⟩, rfl⟩

/-- The pieces of two tokens. -/
inductive DoublePiece : String → TokenKind → TokenKind → Prop where
  | ifHead : DoublePiece "if (" .ifWord .lparen
  | fnHead : DoublePiece "fn(" .fnWord .lparen
  | emptyBlock : DoublePiece "\x7b \x7d" .lbrace .rbrace

theorem lexes_doublePiece (piece : DoublePiece s kind kind') :
    Lexes Anything (utf16 s) fun ts => ∃ (x : Mark kind) (y : Mark kind'), ts = [x.1, y.1] := by
  intro c rest _
  cases piece with
  | ifHead =>
    exact ⟨_, _, .token rfl rfl rfl (.space rfl (.token rfl rfl rfl .done)), ⟨_, rfl⟩, ⟨_, rfl⟩,
      rfl⟩
  | fnHead =>
    exact ⟨_, _, .token rfl rfl rfl (.token rfl rfl rfl .done), ⟨_, rfl⟩, ⟨_, rfl⟩, rfl⟩
  | emptyBlock =>
    exact ⟨_, _, .token rfl rfl rfl (.space rfl (.token rfl rfl rfl .done)), ⟨_, rfl⟩, ⟨_, rfl⟩,
      rfl⟩

theorem lexes_name (name : IsName x) :
    Lexes Loose x fun ts => ∃ y : Mark .ident, x = y.1.literal ∧ ts = [y.1] := by
  apply (lexes_word name.nonempty name.letters).weaken
  rintro ts ⟨c, rfl⟩
  exact ⟨⟨_, (ofWord_eq_ident_iff x).mpr name.free⟩, rfl, rfl⟩

/-- A prefix operator, which must not run into an equals sign. -/
theorem lexes_prefixOperator (listed : op ∈ prefixOperators) :
    Lexes (fun rest => rest.head? ≠ some (unit '=')) op fun ts =>
      ∃ x : Token, (x.kind = .bang ∨ x.kind = .minus) ∧ x.literal = op ∧ ts = [x] := by
  intro c rest apart
  have cases : op = utf16 "!" ∨ op = utf16 "-" := by simpa [prefixOperators] using listed
  rcases cases with rfl | rfl
  · have cut : lexeme (unit '!') rest = (.bang, utf16 "!") := by
      have assign : ¬(unit '!' == unit '=' && rest.head? == some (unit '=')) = true := by
        rw [show (unit '!' == unit '=') = false from rfl]
        exact Bool.false_ne_true
      have single : ¬(unit '!' == unit '!' && rest.head? == some (unit '=')) = true := by
        simpa using apart
      rw [lexeme, if_neg (by decide), if_neg (by decide), if_neg assign, if_neg single]
      rfl
    exact ⟨_, _, .token rfl cut rfl .done, _, .inl rfl, rfl, rfl⟩
  · exact ⟨_, _, .token rfl rfl rfl .done, _, .inr rfl, rfl, rfl⟩

/-- An infix operator between its blanks. -/
theorem lexes_infixOperator (listed : op ∈ infixOperators) :
    Lexes (fun rest => rest.head? = some (unit ' ')) op fun ts =>
      ∃ (x : Token) (l : Nat), infixLevel? x.kind = some l ∧ x.literal = op ∧ ts = [x] := by
  intro c rest blank
  obtain ⟨rest, rfl⟩ := List.head?_eq_some_iff.mp blank
  simp only [infixOperators, List.map_cons, List.map_nil, List.mem_cons, List.not_mem_nil,
    or_false] at listed
  rcases listed with rfl | rfl | rfl | rfl | rfl | rfl | rfl | rfl <;>
    exact ⟨_, _, .token rfl rfl rfl .done, _, _, rfl, rfl, rfl⟩

theorem lexes_blank : Lexes Anything (utf16 " ") fun ts => ts = [] := by
  intro c rest _
  exact ⟨_, _, .space rfl .done, rfl⟩

end Pieces

section Lists

/-- Words with a token of the kind between them. -/
inductive Joined (kind : TokenKind) : List (List Token) → List Token → Prop where
  | last : Joined kind [w] w
  | next (x : Mark kind) : Joined kind words v → Joined kind (w :: words) (w ++ x.1 :: v)

theorem Joined.commas (joined : Joined .comma words v) (c : Mark .comma) :
    Commas words (c.1 :: v) := by
  induction joined generalizing c with
  | @last w =>
    have list := Commas.next (w := w) c .done
    rwa [List.append_nil] at list
  | next x _ ih => exact .next c (ih x)

theorem Joined.listed (joined : Joined .comma words v) : Listed words v := by
  cases joined with
  | last =>
    have list := Listed.items (w := v) .done
    rwa [List.append_nil] at list
  | next x more => exact .items (more.commas x)

theorem Joined.sequence (joined : Joined .semicolon words v) : Sequence words v := by
  induction joined with
  | @last w =>
    have list := Sequence.bare (w := w) .done (by decide) (by decide)
    rwa [List.append_nil] at list
  | next x _ ih => exact .ended x ih

/-- Items with a separator between them. -/
theorem lexes_joined {R : α → List Token → Prop} (text : α → Text) (piece : Piece sep kind)
    (apart : ∀ rest, Loose (utf16 sep ++ rest)) (a : α) (items : List α)
    (each : ∀ b ∈ a :: items, Lexes Loose (text b) (R b)) :
    Lexes Loose ((utf16 sep).intercalate ((a :: items).map text)) fun ts =>
      ∃ words, Itemized R (a :: items) words ∧ Joined kind words ts := by
  induction items generalizing a with
  | nil =>
    have single : (utf16 sep).intercalate [text a] = text a := List.append_nil _
    rw [List.map_cons, List.map_nil, single]
    refine (each a (by simp)).weaken fun ts read => ?_
    exact ⟨[ts], .cons read .nil, .last⟩
  | cons b items ih =>
    have several : (utf16 sep).intercalate ((a :: b :: items).map text) =
        text a ++ utf16 sep ++ (utf16 sep).intercalate ((b :: items).map text) := by
      rw [List.append_assoc]
      rfl
    rw [several]
    have first := each a (by simp)
    have further := ih b fun b' member => each b' (by simp [member])
    refine ((first.append (lexes_piece piece) fun rest _ => apart rest).append further
      fun _ _ => trivial).weaken ?_
    rintro ts ⟨_, v, ⟨w, _, read, ⟨x, rfl⟩, rfl⟩, ⟨words, items, joined⟩, rfl⟩
    refine ⟨w :: words, .cons read items, ?_⟩
    rw [List.append_assoc]
    exact .next x joined

theorem lexes_listed {R : α → List Token → Prop} (text : α → Text) (items : List α)
    (each : ∀ a ∈ items, Lexes Loose (text a) (R a)) :
    Lexes Loose ((utf16 ", ").intercalate (items.map text)) fun ts =>
      ∃ words, Itemized R items words ∧ Listed words ts := by
  cases items with
  | nil => exact fun c rest _ => ⟨[], c, .done, [], .nil, .empty⟩
  | cons a items =>
    apply (lexes_joined text .comma (fun _ => rfl) a items each).weaken
    rintro ts ⟨words, items, joined⟩
    exact ⟨words, items, joined.listed⟩

end Lists

section Readings

/-- What is read of a form is the same form of what is read of its parts. -/
structure Congruence (S : Node → Node → Prop) : Prop where
  letStmt (x : Text) : S e e' → S (.letStmt x e) (.letStmt x e')
  returnStmt : S e e' → S (.returnStmt e) (.returnStmt e')
  exprStmt : S e e' → S (.exprStmt e) (.exprStmt e')
  ident (x : Text) : S (.ident x) (.ident x)
  int (v : Int) : S (.int v) (.int v)
  bool (b : Bool) : S (.bool b) (.bool b)
  unary (op : Text) : S e e' → S (.unary op e) (.unary op e')
  binary (op : Text) : S l l' → S r r' → S (.binary op l r) (.binary op l' r')
  ifThen : S c c' → List.Forall₂ S yes yes' → S (.ifThen c yes) (.ifThen c' yes')
  ifElse : S c c' → List.Forall₂ S yes yes' → List.Forall₂ S no no' →
    S (.ifElse c yes no) (.ifElse c' yes' no')
  fnLit (params : List Text) : List.Forall₂ S body body' →
    S (.fnLit params body) (.fnLit params body')
  call : S f f' → List.Forall₂ S args args' → S (.call f args) (.call f' args')

theorem congruence_eq : Congruence Eq := by
  constructor <;> simp_all [List.forall₂_eq_eq_eq]

/-- The tokens spell a tree that is read in place of `n`. -/
def ReadAs (S : Node → Node → Prop) (slot : Slot) (n : Node) (ts : List Token) : Prop :=
  ∃ n', S n n' ∧ Spells slot n' ts

/-- The tokens spell statements that are read in place of `body`. -/
def BodyReadAs (S : Node → Node → Prop) (body : List Node) (ts : List Token) : Prop :=
  ∃ body', List.Forall₂ S body body' ∧ SpellsBody body' ts

/-- Behind a callee the tokens make a call with arguments that are read in place of `args`. -/
def ArgumentsReadAs (S : Node → Node → Prop) (args : List Node) (u : List Token) : Prop :=
  ∃ args', List.Forall₂ S args args' ∧
    ∀ f w, Spells (.expression 6) f w → Spells (.expression 6) (.call f args') (w ++ u)

variable {S : Node → Node → Prop}

theorem ReadAs.loosen (read : ReadAs S (.expression n) e w) (le : m ≤ n) :
    ReadAs S (.expression m) e w := by
  obtain ⟨e', related, spelled⟩ := read
  exact ⟨e', related, spelled.loosen le⟩

theorem Itemized.readAs (items : Itemized (ReadAs S slot) ns words) :
    ∃ parts : List (Node × List Token), List.Forall₂ S ns (parts.map (·.1)) ∧
      words = parts.map (·.2) ∧ ∀ a ∈ parts, Spells slot a.1 a.2 := by
  obtain ⟨args, rfl, rfl, each⟩ := items
  induction args with
  | nil => exact ⟨[], .nil, rfl, by simp⟩
  | cons a args ih =>
    obtain ⟨⟨n, related, spelled⟩, others⟩ := List.forall_mem_cons.mp each
    obtain ⟨parts, pairs, words, spells⟩ := ih others
    exact ⟨(n, a.2) :: parts, .cons related pairs, by simp [words],
      List.forall_mem_cons.mpr ⟨spelled, spells⟩⟩

theorem lexes_body (body : List Node)
    (each : ∀ n ∈ body, Lexes Loose n.render (ReadAs S .statement n)) :
    Lexes Loose ((utf16 "; ").intercalate (body.map Node.render)) (BodyReadAs S body) := by
  cases body with
  | nil => exact fun c rest _ => ⟨[], c, .done, [], .nil, .nil⟩
  | cons n body =>
    apply (lexes_joined Node.render .semicolon (fun _ => rfl) n body each).weaken
    rintro ts ⟨_, items, joined⟩
    obtain ⟨parts, pairs, rfl, spelled⟩ := items.readAs
    exact ⟨_, pairs, .of_parts parts spelled joined.sequence⟩

theorem lexes_braced (body : List Node)
    (each : ∀ n ∈ body, Lexes Loose n.render (ReadAs S .statement n)) :
    Lexes Anything (braced (Node.renderAll body)) fun ts =>
      ∃ (lb : Mark .lbrace) (rb : Mark .rbrace) (v : List Token),
        ts = lb.1 :: (v ++ [rb.1]) ∧ BodyReadAs S body v := by
  rw [Node.renderAll_eq_map]
  cases body with
  | nil =>
    apply (lexes_doublePiece .emptyBlock).weaken
    rintro ts ⟨lb, rb, rfl⟩
    exact ⟨lb, rb, [], rfl, [], .nil, .nil⟩
  | cons n body =>
    refine (((lexes_piece .lbrace).append (lexes_body (n :: body) each)
      fun _ _ => trivial).append (lexes_piece .rbrace) fun _ _ => rfl).weaken ?_
    rintro ts ⟨_, _, ⟨_, v, ⟨lb, rfl⟩, spelled, rfl⟩, ⟨rb, rfl⟩, rfl⟩
    exact ⟨lb, rb, v, rfl, spelled⟩

end Readings

/-- The text of an expression begins with no equals sign. -/
theorem Admissible.head_render (formed : Admissible .expression e) :
    ∃ u t, e.render = u :: t ∧ u ≠ unit '=' := by
  generalize same : Role.expression = role at formed
  induction formed with
  | @ident x name =>
    obtain ⟨u, t, rfl⟩ := List.exists_cons_of_ne_nil name.nonempty
    refine ⟨u, t, rfl, ?_⟩
    rintro rfl
    exact absurd (name.letters _ List.mem_cons_self) (by decide)
  | @int v =>
    rw [Node.render, decimal]
    split
    · exact ⟨_, _, rfl, by decide⟩
    · have numeral := decimalNat_isNumeral v.natAbs
      obtain ⟨u, t, text⟩ := List.exists_cons_of_ne_nil numeral.nonempty
      refine ⟨u, t, text, ?_⟩
      rintro rfl
      exact absurd (numeral.digits _ (text ▸ List.mem_cons_self)) (by decide)
  | @bool b => cases b <;> exact ⟨_, _, rfl, by decide⟩
  | unary => exact ⟨_, _, rfl, by decide⟩
  | binary => exact ⟨_, _, rfl, by decide⟩
  | ifThen => exact ⟨_, _, rfl, by decide⟩
  | ifElse => exact ⟨_, _, rfl, by decide⟩
  | fnLit => exact ⟨_, _, rfl, by decide⟩
  | call _ _ ih =>
    obtain ⟨u, t, text, other⟩ := ih rfl
    exact ⟨u, _, by rw [Node.render, text]; rfl, other⟩
  | _ => cases same

section Forms

theorem lexes_int {v : Int} (least : 0 ≤ v) (most : v ≤ 9223372036854775807) :
    Lexes Loose (Node.int v).render (Spells (.expression n) (.int v)) := by
  have text : (Node.int v).render = decimalNat v.natAbs := by
    rw [Node.render, decimal, if_neg (Int.not_lt.mpr least)]
  have numeral := decimalNat_isNumeral v.natAbs
  have value : integer? (decimalNat v.natAbs) = some v := by
    rw [numeral.integer?_eq, decimalValue_decimalNat, Int.natAbs_of_nonneg least]
  rw [text]
  apply (lexes_numeral numeral).weaken
  rintro ts ⟨c, rfl⟩
  exact .int ⟨_, rfl⟩ value most

theorem lexes_bool (b : Bool) :
    Lexes Loose (Node.bool b).render (Spells (.expression n) (.bool b)) := by
  cases b with
  | true =>
    apply (lexes_word (x := utf16 "true") (by decide) (List.all_eq_true.mp rfl)).weaken
    rintro ts ⟨c, rfl⟩
    exact .yes ⟨_, rfl⟩
  | false =>
    apply (lexes_word (x := utf16 "false") (by decide) (List.all_eq_true.mp rfl)).weaken
    rintro ts ⟨c, rfl⟩
    exact .no ⟨_, rfl⟩

variable {S : Node → Node → Prop}

theorem lexes_ident (congruence : Congruence S) (name : IsName x) :
    Lexes Loose (Node.ident x).render (ReadAs S (.expression n) (.ident x)) := by
  apply (lexes_name name).weaken
  rintro ts ⟨y, rfl, rfl⟩
  exact ⟨_, congruence.ident _, .ident y⟩

theorem lexes_unary (congruence : Congruence S) (listed : op ∈ prefixOperators)
    (operand : Lexes Loose e.render (ReadAs S (.expression 5) e))
    (head : ∃ u t, e.render = u :: t ∧ u ≠ unit '=') :
    Lexes Loose (Node.unary op e).render (ReadAs S (.expression n) (.unary op e)) := by
  obtain ⟨u, t, text, other⟩ := head
  have apart : ∀ rest, Loose rest → (e.render ++ rest).head? ≠ some (unit '=') := by
    intro rest _
    rw [text, List.cons_append, List.head?_cons]
    exact fun same => other (Option.some.inj same)
  have whole := (((lexes_piece .lparen).append (lexes_prefixOperator listed)
    fun _ _ => trivial).append operand apart).append (lexes_piece .rparen) fun _ _ => rfl
  apply (whole.restrict fun _ _ => trivial).weaken
  rintro ts ⟨_, _, ⟨_, w, ⟨_, _, ⟨lp, rfl⟩, ⟨x, kind, rfl, rfl⟩, rfl⟩, ⟨e', read, spelled⟩, rfl⟩,
    ⟨rp, rfl⟩, rfl⟩
  exact ⟨_, congruence.unary _ read, .grouped lp rp (.unary x kind (by decide) spelled)⟩

theorem lexes_binary (congruence : Congruence S) (listed : op ∈ infixOperators)
    (left : Lexes Loose l.render (ReadAs S (.expression 5) l))
    (right : Lexes Loose r.render (ReadAs S (.expression 5) r)) :
    Lexes Loose (Node.binary op l r).render (ReadAs S (.expression n) (.binary op l r)) := by
  have whole := ((((((lexes_piece .lparen).append left fun _ _ => trivial).append lexes_blank
    fun _ _ => rfl).append (lexes_infixOperator listed) fun _ _ => trivial).append lexes_blank
    fun _ _ => rfl).append right fun _ _ => trivial).append (lexes_piece .rparen) fun _ _ => rfl
  apply (whole.restrict fun _ _ => trivial).weaken
  rintro ts ⟨_, _, ⟨_, v, ⟨_, _, ⟨_, _, ⟨_, _, ⟨_, w, ⟨lp, rfl⟩, ⟨l', read, first⟩, rfl⟩, rfl, rfl⟩,
    ⟨x, k, level, rfl, rfl⟩, rfl⟩, rfl, rfl⟩, ⟨r', read', second⟩, rfl⟩, ⟨rp, rfl⟩, rfl⟩
  obtain ⟨-, -, -, least, most⟩ := level_infix level
  have spelled := Spells.binary (n := 1) x level least (first.loosen (by omega))
    (second.loosen (by omega))
  exact ⟨_, congruence.binary _ read read', by simpa using Spells.grouped (n := n) lp rp spelled⟩

theorem lexes_ifThen (congruence : Congruence S)
    (condition : Lexes Loose c.render (ReadAs S (.expression 5) c))
    (body : ∀ s ∈ yes, Lexes Loose s.render (ReadAs S .statement s)) :
    Lexes Loose (Node.ifThen c yes).render (ReadAs S (.expression n) (.ifThen c yes)) := by
  have whole := (((lexes_doublePiece .ifHead).append condition fun _ _ => trivial).append
    (lexes_piece .headEnd) fun _ _ => rfl).append (lexes_braced yes body) fun _ _ => trivial
  apply (whole.restrict fun _ _ => trivial).weaken
  rintro ts ⟨_, _, ⟨_, _, ⟨_, w, ⟨kw, lp, rfl⟩, ⟨c', read, spelled⟩, rfl⟩, ⟨rp, rfl⟩, rfl⟩,
    ⟨lb, rb, v, rfl, _, reads, parts, rfl, each, list⟩, rfl⟩
  refine ⟨_, congruence.ifThen read reads, ?_⟩
  simpa using Spells.ifThen (n := n) kw lp rp lb rb parts (spelled.loosen (by decide)) each list

theorem lexes_ifElse (congruence : Congruence S)
    (condition : Lexes Loose c.render (ReadAs S (.expression 5) c))
    (body : ∀ s ∈ yes, Lexes Loose s.render (ReadAs S .statement s))
    (body' : ∀ s ∈ no, Lexes Loose s.render (ReadAs S .statement s)) :
    Lexes Loose (Node.ifElse c yes no).render (ReadAs S (.expression n) (.ifElse c yes no)) := by
  have whole := (((((lexes_doublePiece .ifHead).append condition
    fun _ _ => trivial).append (lexes_piece .headEnd) fun _ _ => rfl).append
    (lexes_braced yes body) fun _ _ => trivial).append (lexes_piece .elseWord)
    fun _ _ => trivial).append (lexes_braced no body') fun _ _ => trivial
  apply (whole.restrict fun _ _ => trivial).weaken
  rintro ts ⟨_, _, ⟨_, _, ⟨_, _, ⟨_, _, ⟨_, w, ⟨kw, lp, rfl⟩, ⟨c', read, spelled⟩, rfl⟩, ⟨rp, rfl⟩,
    rfl⟩, ⟨lb, rb, v, rfl, _, reads, parts, rfl, each, list⟩, rfl⟩, ⟨other, rfl⟩, rfl⟩,
    ⟨lb', rb', v', rfl, _, reads', parts', rfl, each', list'⟩, rfl⟩
  refine ⟨_, congruence.ifElse read reads reads', ?_⟩
  simpa using Spells.ifElse (n := n) kw lp rp lb rb other lb' rb' parts parts'
    (spelled.loosen (by decide)) each list each' list'

theorem lexes_fnLit (congruence : Congruence S) (names : ∀ x ∈ params, IsName x)
    (bodies : ∀ s ∈ body, Lexes Loose s.render (ReadAs S .statement s)) :
    Lexes Loose (Node.fnLit params body).render
      (ReadAs S (.expression n) (.fnLit params body)) := by
  have list := lexes_listed id params fun x member => lexes_name (names x member)
  rw [List.map_id] at list
  have whole := (((lexes_doublePiece .fnHead).append list fun _ _ => trivial).append
    (lexes_piece .headEnd) fun _ _ => rfl).append (lexes_braced body bodies) fun _ _ => trivial
  apply (whole.restrict fun _ _ => trivial).weaken
  rintro ts ⟨_, _, ⟨_, _, ⟨_, u, ⟨kw, lp, rfl⟩, ⟨words, items, listed⟩, rfl⟩, ⟨rp, rfl⟩, rfl⟩,
    ⟨lb, rb, v, rfl, _, reads, parts, rfl, each, sequence⟩, rfl⟩
  obtain ⟨params, rfl, rfl⟩ := named_of_itemized items
  refine ⟨_, congruence.fnLit _ reads, ?_⟩
  simpa using Spells.fnLit (n := n) kw lp rp lb rb params parts listed each sequence

theorem lexes_arguments
    (each : ∀ a ∈ args, Lexes Loose a.render (ReadAs S (.expression 5) a)) :
    Lexes Anything (utf16 "(" ++ (utf16 ", ").intercalate (Node.renderAll args) ++ utf16 ")")
      (ArgumentsReadAs S args) := by
  have list := lexes_listed Node.render args each
  rw [← Node.renderAll_eq_map] at list
  apply (((lexes_piece .lparen).append list fun _ _ => trivial).append (lexes_piece .rparen)
    fun _ _ => rfl).weaken
  rintro ts ⟨_, _, ⟨_, v, ⟨lp, rfl⟩, ⟨_, items, listed⟩, rfl⟩, ⟨rp, rfl⟩, rfl⟩
  obtain ⟨parts, reads, rfl, spelled⟩ := items.readAs
  have loose : ∀ a ∈ parts, Spells (.expression 1) a.1 a.2 := fun a member =>
    (spelled a member).loosen (by decide)
  refine ⟨_, reads, fun f w callee => ?_⟩
  simpa using Spells.call (n := 6) lp rp parts (by decide) callee loose listed

theorem lexes_call (callee : Lexes Loose f.render C)
    (each : ∀ a ∈ args, Lexes Loose a.render (ReadAs S (.expression 5) a)) :
    Lexes Loose (Node.call f args).render fun ts =>
      ∃ w u, C w ∧ ArgumentsReadAs S args u ∧ ts = w ++ u := by
  rw [Node.render, List.append_assoc, List.append_assoc, ← List.append_assoc (utf16 "(")]
  exact (callee.append (lexes_arguments each) fun _ _ => rfl).restrict fun _ _ => trivial

theorem lexes_letStmt (congruence : Congruence S) (name : IsName x)
    (value : Lexes Loose e.render (ReadAs S (.expression 5) e)) :
    Lexes Loose (Node.letStmt x e).render (ReadAs S .statement (.letStmt x e)) := by
  refine ((((lexes_piece .letWord).append (lexes_name name) fun _ _ => trivial).append
    (lexes_piece .assign) fun _ _ => rfl).append value fun _ _ => trivial).weaken ?_
  rintro ts ⟨_, w, ⟨_, _, ⟨_, _, ⟨kw, rfl⟩, ⟨y, rfl, rfl⟩, rfl⟩, ⟨eq, rfl⟩, rfl⟩,
    ⟨e', read, spelled⟩, rfl⟩
  exact ⟨_, congruence.letStmt _ read, .letStmt kw y eq (spelled.loosen (by decide))⟩

theorem lexes_returnStmt (congruence : Congruence S)
    (value : Lexes Loose e.render (ReadAs S (.expression 5) e)) :
    Lexes Loose (Node.returnStmt e).render (ReadAs S .statement (.returnStmt e)) := by
  apply ((lexes_piece .returnWord).append value fun _ _ => trivial).weaken
  rintro ts ⟨_, w, ⟨kw, rfl⟩, ⟨e', read, spelled⟩, rfl⟩
  exact ⟨_, congruence.returnStmt read, .returnStmt kw (spelled.loosen (by decide))⟩

theorem lexes_exprStmt (congruence : Congruence S)
    (value : Lexes Loose e.render (ReadAs S (.expression 5) e)) :
    Lexes Loose (Node.exprStmt e).render (ReadAs S .statement (.exprStmt e)) := by
  apply Lexes.weaken value
  rintro ts ⟨e', read, spelled⟩
  exact ⟨_, congruence.exprStmt read, .exprStmt (spelled.loosen (by decide))⟩

end Forms

/-- The text of a tree reads as a spelling of the tree. -/
def Legible : Role → Node → Prop
  | .program, n => ∃ body, n = .program body ∧ Lexes Loose n.render (BodyReadAs Eq body)
  | .statement, n => Lexes Loose n.render (ReadAs Eq .statement n)
  | .expression, n => Lexes Loose n.render (ReadAs Eq (.expression 6) n)

theorem Legible.operand (legible : Legible .expression e) :
    Lexes Loose e.render (ReadAs Eq (.expression 5) e) :=
  Lexes.weaken legible fun _ read => read.loosen (by decide)

theorem WellFormed.legible (formed : WellFormed role n) : Legible role n := by
  induction formed with
  | @program body _ ih =>
    refine ⟨body, rfl, ?_⟩
    rw [Node.render, Node.renderAll_eq_map]
    exact lexes_body body ih
  | letStmt name _ value => exact lexes_letStmt congruence_eq name value.operand
  | returnStmt _ value => exact lexes_returnStmt congruence_eq value.operand
  | exprStmt _ value => exact lexes_exprStmt congruence_eq value.operand
  | ident name => exact lexes_ident congruence_eq name
  | int least most => exact (lexes_int least most).weaken fun ts spelled => ⟨_, rfl, spelled⟩
  | bool => exact (lexes_bool _).weaken fun ts spelled => ⟨_, rfl, spelled⟩
  | unary listed formed operand =>
    exact lexes_unary congruence_eq listed operand.operand formed.admissible.head_render
  | binary listed _ _ left right => exact lexes_binary congruence_eq listed left.operand right.operand
  | ifThen _ _ condition yes => exact lexes_ifThen congruence_eq condition.operand yes
  | ifElse _ _ _ condition yes no => exact lexes_ifElse congruence_eq condition.operand yes no
  | fnLit names _ body => exact lexes_fnLit congruence_eq names body
  | call _ _ callee args =>
    apply (lexes_call callee fun a member => (args a member).operand).weaken
    rintro ts ⟨w, u, ⟨f', read, spelled⟩, ⟨args', reads, calls⟩, rfl⟩
    exact ⟨_, congruence_eq.call read reads, calls f' w spelled⟩

theorem parse_render (formed : WellFormed .program (.program body)) :
    parse (Node.program body).render = .ok ⟨body, [], 0⟩ := by
  obtain ⟨_, same, lexes⟩ := formed.legible
  cases same
  obtain ⟨ts, c, read, _, same, spelled⟩ := lexes .zero [] rfl
  rw [List.forall₂_eq_eq_eq] at same
  subst same
  rw [List.append_nil] at read
  rw [parse, tokenize_eq read]
  exact run_spelling spelled rfl

/-- Every text parses as a well-formed program, and every well-formed program is printed as a
text that parses as this program and nothing else. -/
theorem parse_print_roundTrip :
    (∀ source, ∃ p, parse source = .ok p ∧ WellFormed .program p.program) ∧
      ∀ body, WellFormed .program (.program body) →
        ∃ text, (Node.program body).print = .ok text ∧ parse text = .ok ⟨body, [], 0⟩ := by
  constructor
  · intro source
    obtain ⟨p, run, formed⟩ := parse_ends source
    exact ⟨p, run, .program formed⟩
  · intro body formed
    refine ⟨(Node.program body).render, ?_, parse_render formed⟩
    rw [Node.print, formed.known]

/-- The program `let f = fn(x) { return (!x) }; if (f) { }(9223372036854775807)`. -/
def nestedBody : List Node :=
  [.letStmt (utf16 "f")
      (.fnLit [utf16 "x"] [.returnStmt (.unary (utf16 "!") (.ident (utf16 "x")))]),
    .exprStmt (.call (.ifThen (.ident (utf16 "f")) []) [.int 9223372036854775807])]

theorem parse_print_nestedBody : WellFormed .program (.program nestedBody) ∧
    ∃ text, (Node.program nestedBody).print = .ok text ∧ parse text = .ok ⟨nestedBody, [], 0⟩ := by
  have f : IsName (utf16 "f") := ⟨by decide, List.all_eq_true.mp rfl, by decide⟩
  have x : IsName (utf16 "x") := ⟨by decide, List.all_eq_true.mp rfl, by decide⟩
  have negation : WellFormed .expression (.unary (utf16 "!") (.ident (utf16 "x"))) :=
    .unary (by decide) (.ident x)
  have function : WellFormed .expression
      (.fnLit [utf16 "x"] [.returnStmt (.unary (utf16 "!") (.ident (utf16 "x")))]) :=
    .fnLit (by simpa using x) (by simpa using .returnStmt negation)
  have call : WellFormed .expression
      (.call (.ifThen (.ident (utf16 "f")) []) [.int 9223372036854775807]) :=
    .call (.ifThen (.ident f) (by simp)) (by simpa using .int (by decide) (by decide))
  have formed : WellFormed .program (.program nestedBody) :=
    .program (by simpa [nestedBody] using ⟨.letStmt f function, .exprStmt call⟩)
  exact ⟨formed, parse_print_roundTrip.2 nestedBody formed⟩

end Monkey
