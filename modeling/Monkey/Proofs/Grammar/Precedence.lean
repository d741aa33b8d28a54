import Monkey.Proofs.Grammar.Climbing

/-! Statements and blocks are read as they are spelled, and with them whole programs. -/
namespace Monkey

namespace Parser

/-- The parser takes the tokens of a statement up to its semicolon, if it has one. -/
def TakesStatement (p : Parser Node) (n : Node) (w : List Token) : Prop :=
  Takes p n w (fun rest => Closes rest ∧ kindAhead rest ≠ .semicolon) ∧
    ∀ semi : Mark .semicolon, Takes p n (w ++ [semi.1]) fun _ => True

/-- An expression and the semicolon after it, which the statement `f` is made of. -/
theorem takesStatement_ending (f : Node → Node) (takes : Takes p e w Closes) :
    TakesStatement (do let value ← p; skipSemicolon; return f value) (f e) w := by
  constructor
  · intro s rest follow
    obtain ⟨t, run⟩ := takes s rest follow.1
    refine ⟨t, ?_⟩
    simp only [run_bind, run, skipSemicolon, run_peek, ParserState.peek_reading_kind,
      if_neg follow.2]
    rfl
  · intro semi s rest _
    obtain ⟨t, run⟩ := takes s (semi.1 :: rest) (closes_cons semi (by decide) rest)
    refine ⟨semi.1, ?_⟩
    simp only [List.append_assoc, List.singleton_append, run_bind, run, skipSemicolon, run_peek,
      ParserState.peek_reading_cons, semi.2, if_true, run_advance, ParserState.reading_advance,
      List.tail_cons]
    rfl

/-- Tokens in front that bring `p` to `q` do not matter to how a statement ends. -/
theorem TakesStatement.after {p q : Parser Node} (read : TakesStatement q n w) (lead : List Token)
    (run : ∀ (s : ParserState) v, p (s.reading (lead ++ (w ++ v))) = q (s.reading (w ++ v))) :
    TakesStatement p n (lead ++ w) := by
  constructor
  · intro s rest follow
    rw [List.append_assoc, run]
    exact read.1 s rest follow
  · intro semi s rest follow
    have taken := read.2 semi s rest follow
    rw [List.append_assoc] at taken
    rw [List.append_assoc, List.append_assoc, run]
    exact taken

section Statements

variable {expr : Precedence → Parser Node}

theorem takesStatement_letStmt (kw : Mark .letWord) (x : Mark .ident) (eq : Mark .assign)
    (takes : Takes (expr .lowest) e w Closes) :
    TakesStatement (statement expr) (.letStmt x.1.literal e) (kw.1 :: x.1 :: eq.1 :: w) := by
  refine (takesStatement_ending (.letStmt x.1.literal) takes).after [kw.1, x.1, eq.1] ?_
  intro s v
  simp only [List.cons_append, List.nil_append, statement, run_bind (p := current), run_current,
    ParserState.current_reading_cons, kw.2, letStatement]
  rw [run_then (run_expect_reading s kw.1 x _), run_then (run_current _),
    ParserState.current_reading_cons, run_then (run_expect_reading s x.1 eq _),
    run_then (run_advance _)]
  rfl

theorem takesStatement_returnStmt (kw : Mark .returnWord)
    (takes : Takes (expr .lowest) e w Closes) :
    TakesStatement (statement expr) (.returnStmt e) (kw.1 :: w) := by
  refine (takesStatement_ending .returnStmt takes).after [kw.1] ?_
  intro s v
  simp only [List.cons_append, List.nil_append, statement, run_bind (p := current), run_current,
    ParserState.current_reading_cons, kw.2, returnStatement]
  rw [run_then (run_advance _)]
  rfl

theorem takesStatement_exprStmt (takes : Takes (expr .lowest) e w Closes)
    (starts : kindAhead w ∈ operandKinds) : TakesStatement (statement expr) (.exprStmt e) w := by
  refine (takesStatement_ending .exprStmt takes).after [] ?_
  intro s v
  cases w with
  | nil => exact absurd starts (by decide)
  | cons t w =>
    rw [kindAhead] at starts
    rw [List.nil_append, List.cons_append, statement, run_then (run_current _),
      ParserState.current_reading_cons]
    apply congrFun
    split
    · rename_i kind
      rw [kind] at starts
      exact absurd starts (by decide)
    · rename_i kind
      rw [kind] at starts
      exact absurd starts (by decide)
    · rfl

end Statements

theorem Takes.orOmit (takes : Takes p a w follow) : Takes (orOmit p) (some a) w follow := by
  intro s rest good
  obtain ⟨t, run⟩ := takes s rest good
  exact ⟨t, by rw [Parser.orOmit, run]⟩

/-- A loop that takes statements by `p` until it comes to `tail`. -/
structure Loops (p : Parser Node) (loop : Nat → Parser (List Node)) (tail : List Token) :
    Prop where
  stop (k : Nat) (s : ParserState) : loop (k + 1) (s.reading tail) = .ok [] (s.reading tail)
  step (k : Nat) (s : ParserState) (ts : List Token) : kindAhead ts ∈ starters .statement →
    loop (k + 1) (s.reading ts) =
      (do let first ← Parser.orOmit p; advance; let rest ← loop k; return first.toList ++ rest)
        (s.reading ts)

theorem Loops.next (loops : Loops p loop tail) (starts : kindAhead w ∈ starters .statement)
    (takes : Takes p n w follow) (good : follow ts) {s : ParserState}
    (further : loop k (s.reading ts) = .ok ns (s.reading tail)) :
    loop (k + 1) (s.reading (w ++ ts)) = .ok (n :: ns) (s.reading tail) := by
  obtain ⟨t, first⟩ := takes.orOmit s ts good
  rw [loops.step k s _ (starts_append starts ts), run_then first, run_then (run_advance _),
    ParserState.reading_advance, List.tail_cons, run_then further]
  rfl

theorem closes_of_starts (starts : kindAhead ts ∈ starters .statement)
    (notParen : kindAhead ts ≠ .lparen) (notMinus : kindAhead ts ≠ .minus) :
    Closes ts ∧ kindAhead ts ≠ .semicolon := by
  unfold Closes levelAhead
  generalize kindAhead ts = kind at *
  cases kind <;> revert starts notParen notMinus <;> decide

theorem sequence_starts (list : Sequence words v)
    (starts : ∀ w ∈ words, kindAhead w ∈ starters .statement) :
    v = [] ∨ kindAhead v ∈ starters .statement := by
  cases list with
  | done => exact .inl rfl
  | ended semi list => exact .inr (starts_append (starts _ List.mem_cons_self) _)
  | bare list => exact .inr (starts_append (starts _ List.mem_cons_self) _)

theorem Loops.run (loops : Loops p loop tail) (parts : List (Node × List Token))
    (list : Sequence (parts.map (·.2)) v) (each : ∀ x ∈ parts, TakesStatement p x.1 x.2)
    (starts : ∀ x ∈ parts, kindAhead x.2 ∈ starters .statement) (closes : Closes tail)
    (notSemi : kindAhead tail ≠ .semicolon) (fuel : Nat) (enough : v.length < fuel)
    (s : ParserState) :
    loop fuel (s.reading (v ++ tail)) = .ok (parts.map (·.1)) (s.reading tail) := by
  generalize words : parts.map (·.2) = ws at list
  induction list generalizing parts fuel with
  | done =>
    obtain rfl := List.map_eq_nil_iff.mp words
    cases fuel with
    | zero => omega
    | succ fuel => exact loops.stop fuel s
  | @ended ws v w semi list ih =>
    obtain ⟨⟨n, w'⟩, parts, rfl, rfl, others⟩ := List.map_eq_cons_iff.mp words
    cases fuel with
    | zero => omega
    | succ fuel =>
      simp only [List.length_append, List.length_cons] at enough
      have begins := starts (n, w') (by simp)
      have read := each (n, w') (by simp)
      have further := ih parts (fun x listed => each x (by simp [listed]))
        (fun x listed => starts x (by simp [listed])) fuel (by omega) others
      have run := loops.next (starts_append begins [semi.1]) (read.2 semi) trivial further
      simpa only [List.append_assoc, List.cons_append, List.nil_append, List.map_cons] using run
  | @bare ws v w list notParen notMinus ih =>
    obtain ⟨⟨n, w'⟩, parts, rfl, rfl, others⟩ := List.map_eq_cons_iff.mp words
    cases fuel with
    | zero => omega
    | succ fuel =>
      have begins := starts (n, w') (by simp)
      have positive := List.length_pos_iff.mpr (ne_nil_of_starts begins)
      simp only [List.length_append] at enough positive
      have further := ih parts (fun x listed => each x (by simp [listed]))
        (fun x listed => starts x (by simp [listed])) fuel (by omega) others
      have follow : Closes (v ++ tail) ∧ kindAhead (v ++ tail) ≠ .semicolon := by
        have next := sequence_starts (others ▸ list) fun x listed => by
          obtain ⟨y, member, rfl⟩ := List.mem_map.mp listed
          exact starts y (by simp [member])
        rcases next with rfl | next
        · exact ⟨closes, notSemi⟩
        · have same := kindAhead_append (ne_nil_of_starts next) tail
          rw [← same] at next notParen notMinus
          exact closes_of_starts next notParen notMinus
      rw [List.append_assoc]
      exact loops.next begins (each (n, w') (by simp)).1 follow further

section Loops

variable (expr : Precedence → Parser Node)

theorem loops_blockBody (opening : Cursor) (rb : Mark .rbrace) (rest : List Token) :
    Loops (statement expr) (blockBody expr opening) (rb.1 :: rest) where
  stop k s := by
    rw [blockBody, run_then (run_current _), ParserState.current_reading_cons, if_pos rb.2]
    rfl
  step k s ts starts := by
    cases ts with
    | nil => exact absurd starts (by decide)
    | cons t ts =>
      have unclosed := kindAhead_ne starts .rbrace (by decide)
      have more := kindAhead_ne starts .eof (by decide)
      rw [kindAhead] at unclosed more
      rw [blockBody, run_then (run_current _), ParserState.current_reading_cons, if_neg unclosed,
        if_neg more]

theorem loops_programBody (ended : kindAhead tail = .eof) :
    Loops (statement expr) (programBody expr) tail where
  stop k s := by
    have kind : (s.reading tail).stream.current.kind = .eof := by
      rw [ParserState.current_kind, ParserState.tokens_reading, ended]
    rw [programBody, run_then (run_current _), if_pos kind]
    rfl
  step k s ts starts := by
    have more : (s.reading ts).stream.current.kind ≠ .eof := by
      rw [ParserState.current_kind, ParserState.tokens_reading]
      exact kindAhead_ne starts .eof (by decide)
    rw [programBody, run_then (run_current _), if_neg more]

end Loops

theorem run_block (expr : Precedence → Parser Node) (lb : Mark .lbrace) (rb : Mark .rbrace)
    (body : List (Node × List Token)) (list : Sequence (body.map (·.2)) v)
    (each : ∀ x ∈ body, TakesStatement (statement expr) x.1 x.2)
    (starts : ∀ x ∈ body, kindAhead x.2 ∈ starters .statement) (fuel : Nat)
    (enough : v.length < fuel) (s : ParserState) (rest : List Token) :
    block expr fuel (s.reading (lb.1 :: (v ++ rb.1 :: rest))) =
      .ok (body.map (·.1)) (s.reading (rb.1 :: rest)) := by
  have closes := closes_cons rb (by decide) rest
  have notSemi : kindAhead (rb.1 :: rest) ≠ .semicolon := by rw [kindAhead, rb.2]; decide
  rw [block, run_then (run_current _), ParserState.current_reading_cons, run_then (run_advance _)]
  exact (loops_blockBody expr lb.1.start rb rest).run body list each starts closes notSemi fuel
    enough s

section Blocks

variable {n : Nat} (kw : Mark .ifWord) (lp : Mark .lparen) (rp : Mark .rparen) (lb : Mark .lbrace)
  (rb : Mark .rbrace)

/-- The statements of a body stand, each one by itself, for all fuel that it needs. -/
def Body (body : List (Node × List Token)) : Prop :=
  ∀ x ∈ body, kindAhead x.2 ∈ starters .statement ∧
    ∀ fuel, x.2.length < fuel → TakesStatement (statement (expression fuel)) x.1 x.2

theorem Body.run (standing : Body body) (list : Sequence (body.map (·.2)) v)
    (lb : Mark .lbrace) (rb : Mark .rbrace) (fuel : Nat) (enough : v.length < fuel)
    (s : ParserState) (rest : List Token) :
    block (expression fuel) fuel (s.reading (lb.1 :: (v ++ rb.1 :: rest))) =
      .ok (body.map (·.1)) (s.reading (rb.1 :: rest)) := by
  have each : ∀ x ∈ body, TakesStatement (statement (expression fuel)) x.1 x.2 := by
    intro x listed
    have short := list.length_le x.2 (List.mem_map_of_mem listed)
    exact (standing x listed).2 fuel (by omega)
  exact run_block _ lb rb body list each (fun x listed => (standing x listed).1) fuel enough s rest

theorem climbs_ifThen (body : List (Node × List Token)) (condition : Climbs 1 c w)
    (standing : Body body) (list : Sequence (body.map (·.2)) v) :
    Climbs n (.ifThen c (body.map (·.1)))
      (kw.1 :: lp.1 :: (w ++ rp.1 :: lb.1 :: (v ++ [rb.1]))) := by
  refine .of_operand (by simp) fun fuel enough s rest follow => ⟨rb.1, ?_⟩
  simp only [List.length_cons, List.length_append] at enough
  obtain ⟨t, first⟩ := condition.takes_lowest fuel (by omega) s
    (rp.1 :: lb.1 :: (v ++ rb.1 :: rest)) (closes_cons rp (by decide) _)
  have second := standing.run list lb rb fuel (by omega) s rest
  simp only [List.cons_append, List.append_assoc, List.nil_append, operand, run_bind, run_current,
    ParserState.current_reading_cons, kw.2, conditional, run_expect_reading, run_advance,
    ParserState.reading_advance, List.tail_cons, first, second, run_peek,
    ParserState.peek_reading_kind, if_neg follow.2]
  rfl

theorem climbs_ifElse (other : Mark .elseWord) (lb' : Mark .lbrace) (rb' : Mark .rbrace)
    (body body' : List (Node × List Token)) (condition : Climbs 1 c w) (standing : Body body)
    (list : Sequence (body.map (·.2)) v) (standing' : Body body')
    (list' : Sequence (body'.map (·.2)) v') :
    Climbs n (.ifElse c (body.map (·.1)) (body'.map (·.1)))
      (kw.1 :: lp.1 :: (w ++ rp.1 :: lb.1 ::
        (v ++ rb.1 :: other.1 :: lb'.1 :: (v' ++ [rb'.1])))) := by
  refine .of_operand (by simp) fun fuel enough s rest follow => ⟨rb'.1, ?_⟩
  simp only [List.length_cons, List.length_append] at enough
  obtain ⟨t, first⟩ := condition.takes_lowest fuel (by omega) s
    (rp.1 :: lb.1 :: (v ++ rb.1 :: other.1 :: lb'.1 :: (v' ++ rb'.1 :: rest)))
    (closes_cons rp (by decide) _)
  have second := standing.run list lb rb fuel (by omega) s
    (other.1 :: lb'.1 :: (v' ++ rb'.1 :: rest))
  have third := standing'.run list' lb' rb' fuel (by omega) s rest
  simp only [List.cons_append, List.append_assoc, List.nil_append, operand, run_bind, run_current,
    ParserState.current_reading_cons, kw.2, conditional, run_expect_reading, run_advance,
    ParserState.reading_advance, List.tail_cons, first, second, run_peek,
    ParserState.peek_reading_cons, other.2, if_true, third]
  rfl

theorem takes_parameter (x : Mark .ident) : Takes parameter x.1.literal [x.1] Closes := by
  intro s rest _
  refine ⟨x.1, ?_⟩
  rw [parameter, run_then (run_current _), List.singleton_append,
    ParserState.current_reading_cons, if_pos x.2]
  rfl

theorem run_params (params : List (Mark .ident)) (names : Listed (params.map fun x => [x.1]) u)
    (fuel : Nat) (enough : u.length < fuel) (s : ParserState) (lp : Mark .lparen)
    (rp : Mark .rparen) (rest : List Token) :
    items parameter fuel (s.reading (lp.1 :: (u ++ rp.1 :: rest))) =
      .ok (params.map (·.1.literal)) (s.reading (rp.1 :: rest)) := by
  let named (x : Mark .ident) : Text × List Token := (x.1.literal, [x.1])
  have list : Listed ((params.map named).map (·.2)) u := by rwa [List.map_map]
  have takes : ∀ a ∈ params.map named, Takes parameter a.1 a.2 Closes := by
    intro a listed
    obtain ⟨x, -, rfl⟩ := List.mem_map.mp listed
    exact takes_parameter x
  have starts : ∀ a ∈ params.map named, kindAhead a.2 ∈ starters .statement := by
    intro a listed
    obtain ⟨x, -, rfl⟩ := List.mem_map.mp listed
    exact Spells.mark_starts x [] (by decide)
  have run := run_items (params.map named) list takes starts fuel enough s lp.1 rp rest
  rwa [List.map_map] at run

theorem climbs_fnLit (kw : Mark .fnWord) (params : List (Mark .ident))
    (body : List (Node × List Token)) (names : Listed (params.map fun x => [x.1]) u)
    (standing : Body body) (list : Sequence (body.map (·.2)) v) :
    Climbs n (.fnLit (params.map (·.1.literal)) (body.map (·.1)))
      (kw.1 :: lp.1 :: (u ++ rp.1 :: lb.1 :: (v ++ [rb.1]))) := by
  refine .of_operand (by simp) fun fuel enough s rest _ => ⟨rb.1, ?_⟩
  simp only [List.length_cons, List.length_append] at enough
  have first := run_params params names fuel (by omega) s lp rp (lb.1 :: (v ++ rb.1 :: rest))
  have second := standing.run list lb rb fuel (by omega) s rest
  simp only [List.cons_append, List.append_assoc, List.nil_append, operand, run_bind, run_current,
    ParserState.current_reading_cons, kw.2, functionLiteral, run_expect_reading, first, second]
  rfl

end Blocks

/-- What the parser does with the spelling of a tree in a slot. -/
def Read : Slot → Node → List Token → Prop
  | .expression least, n, w => Climbs least n w
  | .statement, n, w => ∀ fuel, w.length < fuel → TakesStatement (statement (expression fuel)) n w

theorem body_of_spells {body : List (Node × List Token)}
    (each : ∀ x ∈ body, Spells .statement x.1 x.2) (read : ∀ x ∈ body, Read .statement x.1 x.2) :
    Body body := fun x listed => ⟨(each x listed).starts, read x listed⟩

theorem read_of_spells (spelled : Spells slot n w) : Read slot n w := by
  induction spelled with
  | grouped lp rp _ inner => exact climbs_grouped lp rp inner
  | ident x => exact climbs_ident x
  | int x value small => exact climbs_int x value small
  | yes x => exact climbs_yes x
  | no x => exact climbs_no x
  | unary op kind le _ operand => exact climbs_unary op kind le operand
  | binary op level le _ _ left right => exact climbs_binary op level le left right
  | call lp rp args le _ each list callee read =>
    have starts : ∀ a ∈ args, kindAhead a.2 ∈ starters .statement := by
      intro a listed
      exact List.mem_cons_of_mem _ (List.mem_cons_of_mem _ (each a listed).starts)
    have short : ∀ a ∈ args, a.2.length ≤ _ := fun a listed =>
      list.length_le a.2 (List.mem_map_of_mem listed)
    exact climbs_call lp rp args le callee read starts list short
  | ifThen kw lp rp lb rb body _ each list condition read =>
    exact climbs_ifThen kw lp rp lb rb body condition (body_of_spells each read) list
  | ifElse kw lp rp lb rb other lb' rb' body body' _ each list each' list' condition read read' =>
    exact climbs_ifElse kw lp rp lb rb other lb' rb' body body' condition
      (body_of_spells each read) list (body_of_spells each' read') list'
  | fnLit kw lp rp lb rb params body names each list read =>
    exact climbs_fnLit lp rp lb rb kw params body names (body_of_spells each read) list
  | letStmt kw x eq _ value =>
    intro fuel enough
    simp only [List.length_cons] at enough
    exact takesStatement_letStmt kw x eq (Climbs.takes_lowest value fuel (by omega))
  | returnStmt kw _ value =>
    intro fuel enough
    simp only [List.length_cons] at enough
    exact takesStatement_returnStmt kw (Climbs.takes_lowest value fuel (by omega))
  | exprStmt spelled value =>
    intro fuel enough
    exact takesStatement_exprStmt (Climbs.takes_lowest value fuel enough) spelled.starts

end Parser

theorem run_spelling (spelled : SpellsBody body ts) (ended : kindAhead tail = .eof) :
    parseTokens (ts ++ tail) = .ok ⟨body, [], 0⟩ := by
  obtain ⟨parts, rfl, each, list⟩ := spelled
  have enough : ts.length < (ts ++ tail).length + 1 := by
    rw [List.length_append]
    omega
  have standing : Parser.Body parts :=
    Parser.body_of_spells each fun x listed => Parser.read_of_spells (each x listed)
  have closes : Parser.Closes tail ∧ kindAhead tail ≠ .semicolon := by
    rw [Parser.Closes, levelAhead, ended]
    decide
  have run := (Parser.loops_programBody (Parser.expression ((ts ++ tail).length + 1)) ended).run
    parts list
    (fun x listed => (standing x listed).2 _
      (Nat.lt_of_le_of_lt (list.length_le x.2 (List.mem_map_of_mem listed)) enough))
    (fun x listed => (standing x listed).1) closes.1 closes.2 _ enough
    ⟨.ofTokens (ts ++ tail), [], 0⟩
  have start : (⟨.ofTokens (ts ++ tail), [], 0⟩ : ParserState).reading (ts ++ tail) =
      ⟨.ofTokens (ts ++ tail), [], 0⟩ := rfl
  rw [start] at run
  rw [parseTokens, run]
  rfl

end Monkey
