import Monkey.Proofs.Eval.Sourced
import Monkey.Proofs.Grammar.Outcome
import Monkey.Session

/-! How a session fails. Whatever sources it is given, a session holds only values that come
from sources; so a source is rejected with diagnostics, or it gives a value that can be printed,
or it fails as documented. -/
namespace Monkey

/-- Every text has a parse, whose statements are well formed. -/
theorem parseSource_ends (source : Text) : ∃ p, parseSource source = .ok p ∧
    ∀ m ∈ p.statements, WellFormed .statement m := by
  obtain ⟨p, run, formed⟩ := parse_ends source
  exact ⟨p, by rw [parseSource, run], formed⟩

namespace Session

/-- The store holds only values that come from sources, and the global frame is one of its
frames. -/
def Sourced (s : Session) : Prop :=
  s.store.Holds Value.Sourced ∧ s.env < s.store.frames.size

/-- From a session of sources the operation leads to one, and gives a result that satisfies `Q`
or fails as documented. -/
def Sound (m : SessionM α) (Q : α → Prop) : Prop :=
  ∀ s, s.Sourced → match m s with
    | .ok a s' => s'.Sourced ∧ Q a
    | .error f s' => s'.Sourced ∧ f.Documented

namespace Sound

theorem pure {Q : α → Prop} (value : Q a) : Sound (pure a) Q := fun _ sourced => ⟨sourced, value⟩

theorem fail {Q : α → Prop} (documented : f.Documented) : Sound (throw f) Q :=
  fun _ sourced => ⟨sourced, documented⟩

theorem bind {m : SessionM α} {q : α → SessionM β} {P : α → Prop} {Q : β → Prop}
    (first : Sound m P) (next : ∀ a, P a → Sound (q a) Q) : Sound (m >>= q) Q := by
  intro s sourced
  have ends := first s sourced
  simp only [Bind.bind, EStateM.bind]
  cases result : m s with
  | ok a s' =>
    rw [result] at ends
    exact next a ends.2 s' ends.1
  | error f s' =>
    rw [result] at ends
    exact ends

end Sound

theorem sound_evaluateProgram (formed : ∀ m ∈ body, WellFormed .statement m) :
    Sound (evaluateProgram body) fun v => ∃ n, v.Sourced n := by
  rintro s ⟨holds, inside⟩
  have run := Eval.respects_program (I := sourcing) s.depth
    (fun m member => ⟨_, formed m member⟩) inside s.store (Nat.le_refl _) holds
  have lifted : evaluateProgram body s = lift (Monkey.evaluateProgram s.depth body s.env) s := rfl
  rw [lifted, lift]
  cases result : Monkey.evaluateProgram s.depth body s.env s.store with
  | ok v store =>
    rw [result] at run
    obtain ⟨more, kept, value⟩ := run
    exact ⟨⟨kept, Nat.lt_of_lt_of_le inside more⟩, _, value⟩
  | error f store =>
    rw [result] at run
    obtain ⟨more, kept, documented⟩ := run
    exact ⟨⟨kept, Nat.lt_of_lt_of_le inside more⟩, documented⟩

theorem sound_evaluate (source : Text) : Sound (evaluate source) fun v => ∃ n, v.Sourced n := by
  obtain ⟨p, run, formed⟩ := parseSource_ends source
  unfold evaluate parseClean
  simp only [run]
  by_cases clean : p.diagnostics.isEmpty = true
  · rw [if_pos clean]
    exact sound_evaluateProgram formed
  · rw [if_neg clean]
    exact .fail fun none => clean (List.isEmpty_iff.mpr none)

theorem sound_load (sources : List Text) : Sound (load sources) fun _ => True := by
  induction sources with
  | nil => exact .pure trivial
  | cons source sources ih => exact (sound_evaluate source).bind fun _ _ => ih

theorem sound_freshEnv : Sound freshEnv fun _ => True := by
  rintro s ⟨holds, _⟩
  have run : Eval.Respects sourcing 0 (Eval.newFrame none) _ := Eval.respects_newFrame nofun
  obtain ⟨-, kept, inside⟩ := run s.store (Nat.zero_le _) holds
  exact ⟨⟨kept, inside⟩, trivial⟩

theorem sound_reset : Sound reset fun _ => True :=
  sound_freshEnv.bind fun _ _ s sourced => sound_load s.entries s sourced

theorem sourced_blank (depth : Nat) (entries : List Text) : (blank depth entries).Sourced := by
  have run : Eval.Respects sourcing 0 (Eval.newFrame none) _ := Eval.respects_newFrame nofun
  obtain ⟨-, kept, inside⟩ := run .empty (Nat.zero_le _) Store.holds_empty
  exact ⟨kept, inside⟩

/-- What a session is asked to do. -/
inductive Request where
  | evaluate (source : Text)
  | parse (source : Text)
  | reset

/-- The value that the request asks for, if it asks for one. Parsing leaves the session alone. -/
def Request.run : Request → SessionM (Option Value)
  | evaluate source => do
    let v ← Session.evaluate source
    return some v
  | parse source =>
    match parseSource source with
    | .ok _ => return none
    | .error f => throw f
  | reset => do
    Session.reset
    return none

/-- The session after a request, granted or not. -/
def after (s : Session) (r : Request) : Session :=
  match r.run s with
  | .ok _ s' => s'
  | .error _ s' => s'

theorem sound_run (r : Request) : Sound r.run fun v => ∀ w ∈ v, ∃ n, w.Sourced n := by
  cases r with
  | evaluate source =>
    refine (sound_evaluate source).bind fun v sourced => .pure ?_
    rintro w ⟨⟩
    exact sourced
  | parse source =>
    obtain ⟨p, run, -⟩ := parseSource_ends source
    unfold Request.run
    simp only [run]
    exact .pure nofun
  | reset => exact sound_reset.bind fun _ _ => .pure nofun

theorem Sourced.after (sourced : Sourced s) (r : Request) : (s.after r).Sourced := by
  have ends := sound_run r s sourced
  unfold Session.after
  cases result : r.run s with
  | ok _ s' =>
    rw [result] at ends
    exact ends.1
  | error f s' =>
    rw [result] at ends
    exact ends.1

theorem Sourced.afterAll (sourced : Sourced s) (requests : List Request) :
    (requests.foldl Session.after s).Sourced := by
  induction requests generalizing s with
  | nil => exact sourced
  | cons r requests ih => exact ih (sourced.after r)

/-- A session either starts or fails as documented. -/
theorem create_ends (depth : Nat) (entries : List Text) :
    (∃ s, create depth entries = .ok s ∧ s.Sourced) ∨
      ∃ f, create depth entries = .error f ∧ f.Documented := by
  have ends := sound_load entries _ (sourced_blank depth entries)
  unfold create
  cases result : load entries (blank depth entries) with
  | ok _ s =>
    rw [result] at ends
    exact .inl ⟨s, rfl, ends.1⟩
  | error f s =>
    rw [result] at ends
    exact .inr ⟨f, rfl, ends.2⟩

theorem sourced_of_create {depth : Nat} {entries : List Text}
    (created : create depth entries = .ok s) : s.Sourced := by
  obtain ⟨s', started, sourced⟩ | ⟨f, failed, -⟩ := create_ends depth entries
  · cases created.symm.trans started
    exact sourced
  · cases created.symm.trans failed

end Session

/-- Every text has a parse. A session fails to start only as documented. Once it has started,
and whatever it was asked before, a request is granted, with a value that prints if it asks for
one, or fails as documented; and every global binding prints. -/
theorem session_fails_as_documented (depth : Nat) (entries : List Text) :
    (∀ source, ∃ p, parseSource source = .ok p) ∧
    match Session.create depth entries with
    | .error f => f.Documented
    | .ok s => ∀ requests : List Session.Request,
      (∀ r : Session.Request, match r.run (requests.foldl Session.after s) with
        | .ok v _ => ∀ w ∈ v, ∃ text, w.print = .ok text
        | .error f _ => f.Documented) ∧
      ∀ b ∈ (requests.foldl Session.after s).bindings, ∃ text, b.2.print = .ok text := by
  refine ⟨fun source => ?_, ?_⟩
  · obtain ⟨p, run, -⟩ := parseSource_ends source
    exact ⟨p, run⟩
  obtain ⟨s, started, sourced⟩ | ⟨f, failed, documented⟩ := Session.create_ends depth entries
  · rw [started]
    intro requests
    have now := sourced.afterAll requests
    refine ⟨fun r => ?_, fun b member => (now.1.bindings _ b member).prints⟩
    have ends := Session.sound_run r _ now
    cases result : r.run (requests.foldl Session.after s) with
    | ok v s' =>
      rw [result] at ends
      intro w asked
      obtain ⟨n, sourced⟩ := ends.2 w asked
      exact sourced.prints
    | error f s' =>
      rw [result] at ends
      exact ends.2
  · rw [failed]
    exact documented

end Monkey
