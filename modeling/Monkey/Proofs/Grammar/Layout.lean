import Monkey.Proofs.Grammar.Lockstep
import Monkey.Proofs.Grammar.Outcome
import Monkey.Proofs.Token.Spacing

/-! The layout of a source. The places of the tokens reach the diagnostics and nothing else, so two
sources with the same tokens at different places have one program, and their diagnostics differ in
the places alone. -/
namespace Monkey

/-- The tokens stand at one index of the two lists. -/
def Corresponding (ts us : List Token) (x y : Token) : Prop :=
  ∃ i : Nat, ts[i]? = some x ∧ us[i]? = some y

section Corresponding

variable {ts us : List Token} (same : lexemes ts = lexemes us)
include same

theorem Corresponding.lexeme (pair : Corresponding ts us x y) : x.lexeme = y.lexeme := by
  obtain ⟨i, left, right⟩ := pair
  have here := congrArg (·[i]?) same
  simpa [lexemes, left, right] using here

theorem Corresponding.kind (pair : Corresponding ts us x y) : x.kind = y.kind :=
  congrArg Prod.fst (pair.lexeme same)

theorem Corresponding.literal (pair : Corresponding ts us x y) : x.literal = y.literal :=
  congrArg Prod.snd (pair.lexeme same)

theorem forall₂_corresponding : List.Forall₂ (Corresponding ts us) ts us := by
  refine List.forall₂_iff_get.mpr ⟨?_, fun i left right => ⟨i, ?_, ?_⟩⟩
  · simpa [lexemes] using congrArg List.length same
  · simp
  · simp

end Corresponding

theorem Token.describe_eq (kind : x.kind = y.kind) (literal : x.literal = y.literal) :
    Token.describe y = Token.describe x := by
  unfold Token.describe
  rw [kind, literal]

/-- Messages quote tokens without their places, the opening of a block apart. -/
theorem Diagnostic.Alike.message {T : Token → Token → Prop}
    (kind : ∀ {x y}, T x y → x.kind = y.kind) (literal : ∀ {x y}, T x y → x.literal = y.literal)
    (alike : Diagnostic.Alike T d d') : d'.message = d.message ∨
      ∃ x y, T x y ∧ d.problem = .unclosedBlock x.start ∧ d'.problem = .unclosedBlock y.start := by
  obtain ⟨problem, found⟩ := d
  obtain ⟨problem', found'⟩ := d'
  obtain ⟨alike, pair⟩ := alike
  have told := Token.describe_eq (kind pair) (literal pair)
  cases alike with
  | unclosedBlock opening => exact .inr ⟨_, _, opening, rfl, rfl⟩
  | integerTooLarge =>
    left
    unfold Diagnostic.message
    rw [literal pair]
  | _ =>
    left
    unfold Diagnostic.message
    rw [told]

/-- Where two token lists say the same, so do their parses. -/
theorem parseTokens_lexemes {ts us v w : List Token} {c c' : Cursor}
    (same : lexemes ts = lexemes us) (ended : ts = v ++ [Token.endOfInput c])
    (ended' : us = w ++ [Token.endOfInput c']) (run : parseTokens ts = .ok p) :
    ∃ p', parseTokens us = .ok p' ∧ p'.statements = p.statements ∧
      List.Forall₂ (Diagnostic.Alike (Corresponding ts us)) p.diagnostics p'.diagnostics := by
  have lengths : ts.length = us.length := by simpa [lexemes] using congrArg List.length same
  have copies : Copies (Corresponding ts us) [] 0 ⟨.ofTokens ts, [], 0⟩ ⟨.ofTokens us, [], 0⟩ := by
    refine ⟨forall₂_corresponding same, ⟨v.length, ?_, ?_⟩, ⟨[], rfl, .nil⟩, rfl⟩
    · rw [ended, TokenStream.finish_ofTokens, List.getElem?_concat_length]
    · have inner : v.length = w.length := by simpa [ended, ended'] using lengths
      rw [ended', TokenStream.finish_ofTokens, inner, List.getElem?_concat_length]
  obtain ⟨s, loop, diagnostics, -⟩ := parseTokens_eq_ok_iff.mp run
  have fuel : ts.length + 1 ≤ us.length + 1 := by rw [lengths]
  obtain ⟨t, loop', copied⟩ := copies.programBody (Corresponding.kind same)
    (Corresponding.literal same) fuel fuel loop
  obtain ⟨ds, added, alike⟩ := copied.diagnostics
  rw [← diagnostics]
  refine ⟨⟨p.statements, ds, t.omitted⟩, ?_, rfl, alike⟩
  exact parseTokens_eq_ok_iff.mpr ⟨t, loop', added, rfl⟩

/-- Layout says nothing. However the tokens of a source are set anew, they are read again, the
program is the same, and so are the diagnostics: each stands at the corresponding token and says
the same, up to the place that it quotes for the opening of a block. -/
theorem parse_layout (source : Text) (spacing : Spacing (tokenize source).dropLast) :
    lexemes (tokenize spacing.text) = lexemes (tokenize source) ∧
    ∃ p p', parse source = .ok p ∧ parse spacing.text = .ok p' ∧ p'.program = p.program ∧
      List.Forall₂ (fun d d' => ∃ x y,
        Corresponding (tokenize source) (tokenize spacing.text) x y ∧
        d.position = x.start ∧ d'.position = y.start ∧
        (d'.message = d.message ∨ ∃ o o',
          Corresponding (tokenize source) (tokenize spacing.text) o o' ∧
          d.problem = .unclosedBlock o.start ∧ d'.problem = .unclosedBlock o'.start))
        p.diagnostics p'.diagnostics := by
  have same := spacing.lexemes_tokenize
  refine ⟨same, ?_⟩
  obtain ⟨p, run, -⟩ := parse_ends source
  obtain ⟨ts, c, -, tokens⟩ := tokenize_reads source
  obtain ⟨us, c', -, tokens'⟩ := tokenize_reads spacing.text
  obtain ⟨p', run', statements, alike⟩ := parseTokens_lexemes same.symm tokens tokens' run
  refine ⟨p, p', run, run', congrArg Node.program statements, alike.imp fun d d' alike => ?_⟩
  exact ⟨d.found, d'.found, alike.found, rfl, rfl,
    alike.message (Corresponding.kind same.symm) (Corresponding.literal same.symm)⟩

/-- Two lines with four things to report. -/
def wideBlock : Text := utf16 "if (a) \x7b\n  let b = = 1 1 ! == @"

/-- Blanks only where tokens would run together. -/
def narrowBlock : Spacing (tokenize wideBlock).dropLast where
  spaced := (["", "", "", "", "", "", "\n", "", " ", "", "\t", "", " ", ""].map utf16).zip
    (tokenize wideBlock).dropLast
  ending := utf16 "\r\n"
  tokens := by decide +kernel
  blanks := by decide +kernel
  blanksBehind := by decide +kernel
  apart := by decide +kernel

theorem parse_layout_narrowBlock :
    narrowBlock.text = utf16 "if(a)\x7blet\nb= =1\t1! ==@\r\n" ∧
    lexemes (tokenize narrowBlock.text) = lexemes (tokenize wideBlock) ∧
    ∃ p p', parse wideBlock = .ok p ∧ parse narrowBlock.text = .ok p' ∧
      p.diagnostics.map (·.position.offset) = [19, 27, 30, 31] ∧
      p'.diagnostics.map (·.position.offset) = [13, 19, 21, 24] ∧ p'.program = p.program := by
  have wide : (parse wideBlock).toOption.map (fun p => p.diagnostics.map (·.position.offset)) =
      some [19, 27, 30, 31] := by decide +kernel
  have narrow : (parse narrowBlock.text).toOption.map
      (fun p => p.diagnostics.map (·.position.offset)) = some [13, 19, 21, 24] := by decide +kernel
  obtain ⟨same, p, p', run, run', program, -⟩ := parse_layout wideBlock narrowBlock
  rw [run] at wide
  rw [run'] at narrow
  exact ⟨by decide +kernel, same, p, p', run, run', Option.some.inj wide, Option.some.inj narrow,
    program⟩

end Monkey
