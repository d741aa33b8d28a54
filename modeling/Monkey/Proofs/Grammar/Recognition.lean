import Monkey.Proofs.Grammar.Acceptance

/-! What a parser takes for good and where it reports first. A run that has reported nothing has
taken words of a language, a first report stands behind the beginning of such words, and a run on
other tokens does the same as long as the tokens are the same up to the one that is looked at. The
rules carry this from the steps to every form. -/
namespace Monkey.Parser

/-- Whether the current token was taken already. -/
inductive Stance where
  | fresh
  | spent

/-- The parser is before `ts`, with the token that was taken last as the current one. -/
inductive Poised : Stance → Option Token → ParserState → List Token → Prop where
  | fresh : s.stream.tokens = ts → Poised .fresh none s ts
  | spent : s.stream.tokens = t :: ts → Poised .spent (some t) s ts

/-- The token that is looked at next. -/
def Stance.looks : Stance → ParserState → Token
  | fresh, s => s.stream.current
  | spent, s => s.stream.peek

/-- However the run ends, no diagnostic is taken back. -/
def Grows (p : Parser α) : Prop :=
  ∀ s, Ensures p s (fun _ s' => s.diagnostics <+: s'.diagnostics)
    fun _ s' => s.diagnostics <+: s'.diagnostics

theorem grows_inherited : Inherited @Grows where
  pure _ s := List.prefix_refl _
  bind {α β p q} first next s := by
    refine ensures_bind.mpr ((first s).weaken (fun a middle more => ?_) fun _ _ more => more)
    exact (next a middle).weaken (fun _ _ last => more.trans last) fun _ _ last => more.trans last
  current s := List.prefix_refl _
  peek s := List.prefix_refl _
  advance s := List.prefix_refl _
  fail f s := List.prefix_refl _
  reject problem found s := List.prefix_append _ _
  orOmit {α p} run s := by
    have more := run s
    unfold Ensures at more ⊢
    unfold orOmit
    cases result : p s with
    | ok a s' => simpa only [result] using more
    | error e s' =>
      simp only [result] at more
      cases e <;> exact more

/-- How a run ends that starts without a diagnostic: it takes tokens, the last of which stays the
current one if it is not moved past, or it reports behind tokens. -/
inductive Ending (α : Type) where
  | reads (a : α) (w : List Token) (last : Option Token)
  | reports (w : List Token)

namespace Ending

def taken : Ending α → List Token
  | reads _ w _ => w
  | reports w => w

def after (u : List Token) : Ending α → Ending α
  | reads a w last => reads a (u ++ w) last
  | reports w => reports (u ++ w)

/-- The tokens are of the language, or can be completed to such. -/
def Within (L : List Token → Prop) : Ending α → Prop
  | reads _ w _ => L w
  | reports w => ∃ z, L (w ++ z)

@[simp] theorem taken_after (u : List Token) (e : Ending α) : (e.after u).taken = u ++ e.taken := by
  cases e <;> rfl

end Ending

/-- The run breaks off without a result. -/
def Faults (p : Parser α) (s : ParserState) : Prop := ∃ f s', p s = .error (.fault f) s'

/-- The run ends with these diagnostics. -/
def Leaves (p : Parser α) (s : ParserState) (ds : List Diagnostic) : Prop :=
  Ensures p s (fun _ s' => s'.diagnostics = ds) fun e s' => e = .recorded ∧ s'.diagnostics = ds

/-- The run from `s` before `ts` ends so. -/
def Concludes (c : Stance) (p : Parser α) (s : ParserState) (ts : List Token) : Ending α → Prop
  | .reads a w last => ∃ s' rest, p s = .ok a s' ∧ s'.diagnostics = [] ∧ ts = w ++ rest ∧
      Poised c last s' rest
  | .reports w => ∃ d ds rest, Leaves p s (d :: ds) ∧ ts = w ++ rest ∧ Heads rest d.found

/-- The first `n` tokens are the same. -/
def Shared (n : Nat) (ts us : List Token) : Prop := ∃ v, v.length = n ∧ v <+: ts ∧ v <+: us

/-- Where `t` is looked at, the parser takes words of the language or reports behind a beginning of
such words, and so does `p'` on tokens that are the same up to the one behind those. -/
structure Meets (b c : Stance) (t : Token) (p p' : Parser α) (L : List Token → Prop) : Prop where
  grows : Grows p
  grows' : Grows p'
  inhabited : ∃ w, L w
  run (s : ParserState) : s.diagnostics = [] → Poised b x s ts → b.looks s = t →
    Faults p s ∨ ∃ e, Concludes c p s ts e ∧ e.Within L ∧
      ∀ s' ts', s'.diagnostics = [] → Poised b x s' ts' → b.looks s' = t →
        Shared (e.taken.length + 1) ts ts' → Faults p' s' ∨ Concludes c p' s' ts' e

/-- The parser does so whatever it looks at. -/
def Recognizes (b c : Stance) (p p' : Parser α) (L : List Token → Prop) : Prop :=
  ∀ t, Meets b c t p p' L

theorem Leaves.not_faults {p : Parser α} (leaves : Leaves p s ds) : ¬Faults p s := by
  rintro ⟨f, s', run⟩
  unfold Leaves Ensures at leaves
  rw [run] at leaves
  cases leaves.1

theorem Leaves.unique {p : Parser α} (one : Leaves p s ds) (two : Leaves p s es) : ds = es := by
  unfold Leaves Ensures at one two
  cases result : p s with
  | ok a s' =>
    rw [result] at one two
    exact one.symm.trans two
  | error e s' =>
    rw [result] at one two
    exact one.2.symm.trans two.2

theorem Concludes.leaves {p : Parser α} (reads : Concludes c p s ts (.reads a w last)) :
    Leaves p s [] := by
  obtain ⟨s', rest, run, clean, -⟩ := reads
  unfold Leaves Ensures
  rw [run]
  exact clean

section Shared

theorem Shared.weaken (shared : Shared n ts us) (le : m ≤ n) : Shared m ts us := by
  obtain ⟨v, rfl, left, right⟩ := shared
  refine ⟨v.take m, by simp [Nat.min_eq_left le], ?_, ?_⟩
  · exact (List.take_prefix m v).trans left
  · exact (List.take_prefix m v).trans right

theorem Shared.cons (shared : Shared (n + 1) (t :: ts) us) :
    ∃ us', us = t :: us' ∧ Shared n ts us' := by
  obtain ⟨v, length, left, right⟩ := shared
  obtain ⟨x, v, rfl⟩ := List.exists_cons_of_length_eq_add_one length
  obtain ⟨rfl, before⟩ := List.cons_prefix_cons.mp left
  obtain ⟨us', rfl⟩ := right
  exact ⟨v ++ us', rfl, v, by simpa using length, before, List.prefix_append _ _⟩

theorem Shared.append (shared : Shared (w.length + n) (w ++ ts) us) :
    ∃ us', us = w ++ us' ∧ Shared n ts us' := by
  induction w generalizing us with
  | nil => exact ⟨us, rfl, by simpa using shared⟩
  | cons t w ih =>
    rw [List.length_cons, Nat.add_right_comm] at shared
    obtain ⟨middle, rfl, further⟩ := Shared.cons shared
    obtain ⟨us', rfl, rest⟩ := ih further
    exact ⟨us', rfl, rest⟩

end Shared

section Positions

variable {b : Stance} {x : Option Token} {s s' : ParserState}

theorem Poised.heads (poised : Poised b x s ts) : Heads ts (b.looks s) := by
  cases poised with
  | fresh tokens =>
    have heads := heads_current s
    rwa [tokens] at heads
  | spent tokens =>
    have heads := heads_peek s
    rwa [tokens] at heads

theorem Poised.looks_shared (poised : Poised b x s ts) (poised' : Poised b x' s' us)
    (shared : Shared (n + 1) ts us) : b.looks s' = b.looks s := by
  obtain ⟨v, length, left, right⟩ := shared
  obtain ⟨t, v, rfl⟩ := List.exists_cons_of_length_eq_add_one length
  obtain ⟨rest, rfl⟩ := left
  obtain ⟨rest', rfl⟩ := right
  exact poised'.heads.head.trans poised.heads.head.symm

end Positions

theorem Poised.taken (poised : Poised .spent x s ts) :
    ∃ t, x = some t ∧ s.stream.tokens = t :: ts := by
  cases poised with
  | spent tokens => exact ⟨_, rfl, tokens⟩

theorem Poised.advance (poised : Poised .spent x s ts) :
    Poised .fresh none { s with stream := s.stream.advance } ts := by
  cases poised with
  | spent tokens => exact .fresh (congrArg List.tail tokens)

/-- The words of one language behind the words of another. -/
def Chain (L M : List Token → Prop) (w : List Token) : Prop := ∃ u v, L u ∧ M v ∧ w = u ++ v

/-- The empty word. -/
def Nothing (w : List Token) : Prop := w = []

theorem one_inhabited (kind : TokenKind) : ∃ w, One kind w := ⟨_, kind.mark [] .zero, rfl⟩

section Rules

variable {b c d : Stance} {t : Token} {L M : List Token → Prop}

section Sequencing

theorem Faults.of_eq {p q : Parser α} (same : p s = q s') (faults : Faults q s') : Faults p s := by
  obtain ⟨f, s'', run⟩ := faults
  exact ⟨f, s'', same.trans run⟩

theorem Concludes.of_eq {p q : Parser α} (same : p s = q s') (concludes : Concludes c q s' ts e) :
    Concludes c p s ts e := by
  cases e with
  | reads a w last => simpa only [Concludes, same] using concludes
  | reports w => simpa only [Concludes, Leaves, Ensures, same] using concludes

theorem Concludes.behind {p : Parser α} (concludes : Concludes c p s ts e) (u : List Token) :
    Concludes c p s (u ++ ts) (e.after u) := by
  cases e with
  | reads a w last =>
    obtain ⟨s', rest, run, clean, rfl, poised⟩ := concludes
    exact ⟨s', rest, run, clean, (List.append_assoc ..).symm, poised⟩
  | reports w =>
    obtain ⟨d, ds, rest, leaves, rfl, heads⟩ := concludes
    exact ⟨d, ds, rest, leaves, (List.append_assoc ..).symm, heads⟩

variable {p : Parser α} {q : α → Parser β}

theorem Faults.bind (faults : Faults p s) : Faults (p >>= q) s := by
  obtain ⟨f, s', run⟩ := faults
  exact ⟨f, s', by rw [run_bind, run]⟩

/-- What comes after a report may add further ones or break off. -/
theorem Concludes.report (reports : Concludes c p s ts (.reports w)) (grows : ∀ a, Grows (q a)) :
    Faults (p >>= q) s ∨ Concludes d (p >>= q) s ts (.reports w) := by
  obtain ⟨first, ds, rest, leaves, split, heads⟩ := reports
  unfold Leaves Ensures at leaves
  unfold Concludes Leaves Faults Ensures
  rw [run_bind]
  cases result : p s with
  | error e s' =>
    rw [result] at leaves
    exact .inr ⟨first, ds, rest, leaves, split, heads⟩
  | ok a s' =>
    simp only [result] at leaves ⊢
    have more := grows a s'
    unfold Ensures at more
    cases last : q a s' with
    | ok b s'' =>
      rw [last, leaves] at more
      obtain ⟨extra, further⟩ := more
      exact .inr ⟨first, ds ++ extra, rest, further.symm, split, heads⟩
    | error e s'' =>
      rw [last, leaves] at more
      obtain ⟨extra, further⟩ := more
      cases e with
      | recorded => exact .inr ⟨first, ds ++ extra, rest, ⟨rfl, further.symm⟩, split, heads⟩
      | fault f => exact .inl ⟨f, s'', rfl⟩

end Sequencing

theorem Meets.weaken {p p' : Parser α} (meets : Meets b c t p p' L) (sub : ∀ w, L w → M w) :
    Meets b c t p p' M where
  grows := meets.grows
  grows' := meets.grows'
  inhabited := meets.inhabited.imp sub
  run {x ts} s clean poised looks := by
    refine (meets.run s clean poised looks).imp_right fun ⟨e, concludes, within, same⟩ => ?_
    refine ⟨e, concludes, ?_, same⟩
    cases e with
    | reads a w last => exact sub w within
    | reports w => exact within.imp fun z => sub (w ++ z)

theorem Ending.Within.after {e : Ending α} (first : L w) (within : e.Within M) :
    (e.after w).Within (Chain L M) := by
  cases e with
  | reads a v last => exact ⟨w, v, first, within, rfl⟩
  | reports v =>
    obtain ⟨z, word⟩ := within
    exact ⟨z, w, v ++ z, first, word, List.append_assoc ..⟩

theorem Meets.bind [Inhabited α] {p p' : Parser α} {q q' : α → Parser β}
    (first : Meets b c t p p' L) (next : ∀ r, Recognizes c d (q r) (q' r) M) :
    Meets b d t (p >>= q) (p' >>= q') (Chain L M) where
  grows := grows_inherited.bind first.grows fun r => (next r t).grows
  grows' := grows_inherited.bind first.grows' fun r => (next r t).grows'
  inhabited := by
    obtain ⟨u, left⟩ := first.inhabited
    obtain ⟨v, right⟩ := (next default t).inhabited
    exact ⟨u ++ v, u, v, left, right, rfl⟩
  run {x ts} s clean poised looks := by
    obtain faults | ⟨e, concludes, within, same⟩ := first.run s clean poised looks
    · exact .inl faults.bind
    cases e with
    | reads r w last =>
      obtain ⟨middle, rest, run, still, rfl, between⟩ := concludes
      obtain faults | ⟨e, further, within', same'⟩ :=
        (next r (c.looks middle)).run middle still between rfl
      · exact .inl (faults.of_eq (run_then run))
      refine .inr ⟨e.after w, (further.of_eq (run_then run)).behind w, within'.after within, ?_⟩
      -- the other run shares the tokens of both parts, so it gets through the first one too
      intro s' ts' clean' poised' looks' shared
      rw [Ending.taken_after, List.length_append, Nat.add_assoc] at shared
      obtain ⟨rest', rfl, ahead⟩ := Shared.append shared
      obtain faults | ⟨middle', _, run', still', split, between'⟩ :=
        same s' _ clean' poised' looks' (shared.weaken (Nat.add_le_add_left (Nat.le_add_left ..) _))
      · exact .inl faults.bind
      obtain rfl := List.append_cancel_left split
      obtain faults | further' := same' middle' rest' still' between'
        (between.looks_shared between' ahead) ahead
      · exact .inl (faults.of_eq (run_then run'))
      · exact .inr ((further'.of_eq (run_then run')).behind w)
    | reports w =>
      obtain faults | reports := concludes.report (d := d) fun r => (next r t).grows
      · exact .inl faults
      refine .inr ⟨.reports w, reports, ?_, fun s' ts' clean' poised' looks' shared => ?_⟩
      · obtain ⟨z, word⟩ := within
        obtain ⟨v, right⟩ := (next default t).inhabited
        exact ⟨z ++ v, w ++ z, v, word, right, (List.append_assoc ..).symm⟩
      · obtain faults | reports' := same s' ts' clean' poised' looks' shared
        · exact .inl faults.bind
        · exact reports'.report fun r => (next r t).grows'

theorem Recognizes.weaken {p p' : Parser α} (run : Recognizes b c p p' L)
    (sub : ∀ w, L w → M w) : Recognizes b c p p' M := fun t => (run t).weaken sub

theorem Recognizes.bind [Inhabited α] {p p' : Parser α} {q q' : α → Parser β}
    (first : Recognizes b c p p' L) (next : ∀ r, Recognizes c d (q r) (q' r) M) :
    Recognizes b d (p >>= q) (p' >>= q') (Chain L M) := fun t => (first t).bind next

theorem Meets.ite {P : Prop} [Decidable P] {p p' q q' : Parser α} (yes : P → Meets b c t p p' L)
    (no : ¬P → Meets b c t q q' L) :
    Meets b c t (if P then p else q) (if P then p' else q') L := by
  split
  · exact yes ‹_›
  · exact no ‹_›

theorem recognizes_pure (a : α) : Recognizes b b (pure a) (pure a) Nothing := fun t => {
  grows := grows_inherited.pure a
  grows' := grows_inherited.pure a
  inhabited := ⟨[], rfl⟩
  run {x ts} s clean poised looks := by
    refine .inr ⟨.reads a [] x, ⟨s, ts, rfl, clean, rfl, poised⟩, rfl, ?_⟩
    exact fun s' ts' clean' poised' _ _ => .inr ⟨s', ts', rfl, clean', rfl, poised'⟩ }

theorem Meets.pure (a : α) (word : L []) : Meets b b t (Pure.pure a) (Pure.pure a) L :=
  (recognizes_pure a t).weaken fun _ empty => empty ▸ word

/-- The token that is looked at is the first that cannot be taken. -/
theorem Meets.reject (problem problem' : Problem) (inhabited : ∃ w, L w) :
    Meets b c t (reject problem t : Parser α) (reject problem' t) L where
  grows := grows_inherited.reject problem t
  grows' := grows_inherited.reject problem' t
  inhabited := inhabited
  run {x ts} s clean poised looks := by
    have report (problem : Problem) {s : ParserState} {ts : List Token} (clean : s.diagnostics = [])
        (poised : Poised b x s ts) (looks : b.looks s = t) :
        Concludes c (Parser.reject problem t : Parser α) s ts (.reports []) := by
      refine ⟨⟨problem, t⟩, [], ts, ⟨rfl, ?_⟩, rfl, looks ▸ poised.heads⟩
      simp [clean]
    refine .inr ⟨.reports [], report problem clean poised looks, inhabited, ?_⟩
    exact fun s' ts' clean' poised' looks' _ => .inr (report problem' clean' poised' looks')

/-- A parser may break off, whatever the other one does. -/
theorem Meets.fail {p' : Parser α} (f : ParseFault) (grows : Grows p') (inhabited : ∃ w, L w) :
    Meets b c t (fail f) p' L where
  grows := grows_inherited.fail f
  grows' := grows
  inhabited := inhabited
  run s _ _ _ := .inl ⟨f, s, rfl⟩

theorem Meets.starve {p p' : Parser α} (meets : Meets b c t p p' L) (f : ParseFault) :
    Meets b c t p (Parser.fail f) L where
  grows := meets.grows
  grows' := grows_inherited.fail f
  inhabited := meets.inhabited
  run {x ts} s clean poised looks := by
    refine (meets.run s clean poised looks).imp_right fun ⟨e, concludes, within, _⟩ => ?_
    exact ⟨e, concludes, within, fun s' _ _ _ _ _ => .inl ⟨f, s', rfl⟩⟩

/-- Parsers that do the same where `t` is looked at. -/
theorem Meets.congr {p p' q q' : Parser α} (meets : Meets b c t q q' L) (grows : Grows p)
    (grows' : Grows p') (left : ∀ s, b.looks s = t → p s = q s)
    (right : ∀ s, b.looks s = t → p' s = q' s) : Meets b c t p p' L where
  grows := grows
  grows' := grows'
  inhabited := meets.inhabited
  run {x ts} s clean poised looks := by
    obtain faults | ⟨e, concludes, within, same⟩ := meets.run s clean poised looks
    · exact .inl (faults.of_eq (left s looks))
    refine .inr ⟨e, concludes.of_eq (left s looks), within, ?_⟩
    intro s' ts' clean' poised' looks' shared
    obtain faults | concludes' := same s' ts' clean' poised' looks' shared
    · exact .inl (faults.of_eq (right s' looks'))
    · exact .inr (concludes'.of_eq (right s' looks'))

theorem recognizes_current {q q' : Token → Parser α}
    (branch : ∀ t, Meets .fresh c t (q t) (q' t) L) :
    Recognizes .fresh c (current >>= q) (current >>= q') L := by
  intro t
  refine (branch t).congr ?_ ?_ ?_ ?_
  · exact grows_inherited.bind grows_inherited.current fun t => (branch t).grows
  · exact grows_inherited.bind grows_inherited.current fun t => (branch t).grows'
  · exact fun s looks => (run_then (run_current s)).trans (by rw [← looks]; rfl)
  · exact fun s looks => (run_then (run_current s)).trans (by rw [← looks]; rfl)

theorem recognizes_peek {q q' : Token → Parser α}
    (branch : ∀ t, Meets .spent c t (q t) (q' t) L) :
    Recognizes .spent c (peek >>= q) (peek >>= q') L := by
  intro t
  refine (branch t).congr ?_ ?_ ?_ ?_
  · exact grows_inherited.bind grows_inherited.peek fun t => (branch t).grows
  · exact grows_inherited.bind grows_inherited.peek fun t => (branch t).grows'
  · exact fun s looks => (run_then (run_peek s)).trans (by rw [← looks]; rfl)
  · exact fun s looks => (run_then (run_peek s)).trans (by rw [← looks]; rfl)

/-- The current token of a spent parser is the one that was taken last. -/
theorem recognizes_reread {q q' : Token → Parser α}
    (next : ∀ t, Recognizes .spent c (q t) (q' t) L) :
    Recognizes .spent c (current >>= q) (current >>= q') L := fun t => {
  grows := grows_inherited.bind grows_inherited.current fun r => (next r t).grows
  grows' := grows_inherited.bind grows_inherited.current fun r => (next r t).grows'
  inhabited := (next t t).inhabited
  run {x ts} s clean poised looks := by
    have still {q : Token → Parser α} {r : Token} {s : ParserState} {ts : List Token}
        (tokens : s.stream.tokens = r :: ts) : (current >>= q) s = q r s := by
      rw [run_then (run_current s), TokenStream.current, tokens]
      rfl
    obtain ⟨r, rfl, tokens⟩ := poised.taken
    obtain faults | ⟨e, concludes, within, same⟩ := (next r t).run s clean poised looks
    · exact .inl (faults.of_eq (still tokens))
    refine .inr ⟨e, concludes.of_eq (still tokens), within, ?_⟩
    intro s' ts' clean' poised' looks' shared
    obtain ⟨_, ⟨⟩, tokens'⟩ := poised'.taken
    have further := same s' ts' clean' poised' looks' shared
    exact further.imp (.of_eq (still tokens')) (.of_eq (still tokens')) }

/-- The token that is looked at is taken. -/
theorem Meets.take {p p' : Parser α} (real : t.kind ≠ .eof)
    (next : Recognizes .spent c p p' fun v => L (t :: v)) : Meets .fresh c t p p' L where
  grows := (next t).grows
  grows' := (next t).grows'
  inhabited := by
    obtain ⟨v, word⟩ := (next t).inhabited
    exact ⟨t :: v, word⟩
  run {x ts} s clean poised looks := by
    obtain ⟨rest, rfl⟩ := (looks ▸ poised.heads).real rfl real
    cases poised with
    | fresh tokens =>
    have there : Poised .spent (some t) s rest := .spent tokens
    obtain faults | ⟨e, concludes, within, same⟩ :=
      (next (Stance.looks .spent s)).run s clean there rfl
    · exact .inl faults
    refine .inr ⟨e.after [t], concludes.behind [t], ?_, ?_⟩
    · cases e with
      | reads a w last => exact within
      | reports w => exact within
    · intro s' ts' clean' poised' looks' shared
      rw [Ending.taken_after, List.length_append, Nat.add_assoc] at shared
      obtain ⟨rest', rfl, ahead⟩ := Shared.append (w := [t]) shared
      cases poised' with
      | fresh tokens' =>
      have there' : Poised .spent (some t) s' rest' := .spent tokens'
      refine (same s' rest' clean' there' (there.looks_shared there' ahead) ahead).imp_right ?_
      exact fun concludes' => concludes'.behind [t]

theorem Meets.advance {q q' : Unit → Parser α} (next : Meets .fresh c t (q ()) (q' ()) L) :
    Meets .spent c t (advance >>= q) (advance >>= q') L where
  grows := grows_inherited.bind grows_inherited.advance fun _ => next.grows
  grows' := grows_inherited.bind grows_inherited.advance fun _ => next.grows'
  inhabited := next.inhabited
  run {x ts} s clean poised looks := by
    obtain faults | ⟨e, concludes, within, same⟩ :=
      next.run { s with stream := s.stream.advance } clean poised.advance looks
    · exact .inl (faults.of_eq (run_then (run_advance s)))
    refine .inr ⟨e, concludes.of_eq (run_then (run_advance s)), within, ?_⟩
    intro s' ts' clean' poised' looks' shared
    have further := same { s' with stream := s'.stream.advance } ts' clean' poised'.advance looks'
      shared
    exact further.imp (.of_eq (run_then (run_advance s'))) (.of_eq (run_then (run_advance s')))

theorem Recognizes.advance {q q' : Unit → Parser α} (next : Recognizes .fresh c (q ()) (q' ()) L) :
    Recognizes .spent c (Parser.advance >>= q) (Parser.advance >>= q') L :=
  fun t => (next t).advance

theorem Meets.move (real : t.kind ≠ .eof) (word : L [t]) :
    Meets .spent .spent t Parser.advance Parser.advance L := by
  rw [← bind_pure Parser.advance]
  exact .advance (.take real fun _ => .pure () word)

theorem recognizes_expect (kind : TokenKind) (real : kind ≠ .eof) :
    Recognizes .spent .spent (expect kind) (expect kind) (One kind) := by
  refine recognizes_peek fun t => .ite (fun same => ?_) fun _ => ?_
  · exact .move (same ▸ real) ⟨⟨t, same⟩, rfl⟩
  · exact .reject _ _ (one_inhabited kind)

/-- A semicolon or nothing. -/
def Semicolon (w : List Token) : Prop := w = [] ∨ One .semicolon w

theorem recognizes_skipSemicolon :
    Recognizes .spent .spent skipSemicolon skipSemicolon Semicolon := by
  refine recognizes_peek fun t => .ite (fun semi => ?_) fun _ => .pure _ (.inl rfl)
  exact .move (by rw [semi]; decide) (.inr ⟨⟨t, semi⟩, rfl⟩)

def Ending.kept : Ending α → Ending (Option α)
  | reads a w last => reads (some a) w last
  | reports w => reports w

theorem Faults.orOmit {p : Parser α} (faults : Faults p s) : Faults (Parser.orOmit p) s := by
  obtain ⟨f, s', run⟩ := faults
  exact ⟨f, s', by rw [Parser.orOmit, run]⟩

/-- A statement that is given up was reported. -/
theorem Concludes.orOmit {p : Parser α} (concludes : Concludes c p s ts e) :
    Concludes c (Parser.orOmit p) s ts e.kept := by
  cases e with
  | reads a w last =>
    obtain ⟨s', rest, run, clean, split, poised⟩ := concludes
    exact ⟨s', rest, by rw [Parser.orOmit, run], clean, split, poised⟩
  | reports w =>
    obtain ⟨first, ds, rest, leaves, split, heads⟩ := concludes
    refine ⟨first, ds, rest, ?_, split, heads⟩
    unfold Leaves Ensures at leaves ⊢
    unfold Parser.orOmit
    cases result : p s with
    | ok a s' => simpa only [result] using leaves
    | error e s' =>
      simp only [result] at leaves
      obtain ⟨rfl, same⟩ := leaves
      exact same

theorem Recognizes.orOmit {p p' : Parser α} (run : Recognizes b c p p' L) :
    Recognizes b c (Parser.orOmit p) (Parser.orOmit p') L := fun t => {
  grows := grows_inherited.orOmit (run t).grows
  grows' := grows_inherited.orOmit (run t).grows'
  inhabited := (run t).inhabited
  run {x ts} s clean poised looks := by
    obtain faults | ⟨e, concludes, within, same⟩ := (run t).run s clean poised looks
    · exact .inl faults.orOmit
    have taken : e.kept.taken = e.taken := by cases e <;> rfl
    refine .inr ⟨e.kept, concludes.orOmit, ?_, ?_⟩
    · cases e with
      | reads a w last => exact within
      | reports w => exact within
    · rw [taken]
      intro s' ts' clean' poised' looks' shared
      exact (same s' ts' clean' poised' looks' shared).imp .orOmit .orOmit }

/-- Parsers that go round in step, each on fuel of its own. -/
theorem recognizes_rounds (p q : Nat → ι → Parser α) (inhabited : ∃ w, L w)
    (none : ∀ i, p 0 i = fail .tooDeep) (none' : ∀ i, q 0 i = fail .tooDeep)
    (grows : ∀ n i, Grows (q n i))
    (step : ∀ n m, (∀ i, Recognizes b c (p n i) (q m i) L) →
      ∀ i, Recognizes b c (p (n + 1) i) (q (m + 1) i) L) (n m : Nat) (i : ι) :
    Recognizes b c (p n i) (q m i) L := by
  induction n generalizing m i with
  | zero =>
    rw [none]
    exact fun t => .fail _ (grows m i) inhabited
  | succ n ih =>
    cases m with
    | succ m => exact step n m (ih m) i
    | zero =>
      -- what the first parser does shows beside any fuel of the second
      rw [none']
      exact fun t => (step n 0 (ih 0) i t).starve _

end Rules

end Monkey.Parser
