import Mathlib.Data.List.DropRight
import Monkey.Console.Shell
import Monkey.Proofs.Session.Likeness

/-! A dialogue is a run of a session with a log. After any lines, the history holds those that
are not blank, the log holds what each line led to, the global bindings are those of a new session
that evaluated the sources since the last reset, and the console was left if some line asked for
that. -/
namespace Monkey

/-- The session that an operation leaves, however it ends. -/
def SessionM.after (m : SessionM α) (s : Session) : Session :=
  match m s with
  | .ok _ s' => s'
  | .error _ s' => s'

theorem Session.Mirrors.after {m m' : SessionM α} {entries : List Text} {Q : α → α → Prop}
    (mirrors : Session.Mirrors n entries m m' Q) (alike : Session.Alike n entries s t) :
    Session.Alike n entries (m.after s) (m'.after t) := by
  have ends := mirrors s t alike
  unfold SessionM.after
  generalize m s = x at ends ⊢
  generalize m' t = y at ends ⊢
  cases ends with
  | ok alike => exact alike
  | error alike => exact alike

namespace Shell

/-- Submits lines one after another: what each leads to, and the shell after the last. -/
def submitAll (sh : Shell) : List Text → List (List Entry) × Shell
  | [] => ([], sh)
  | line :: rest =>
    let (entries, sh') := sh.submit line
    let (others, last) := sh'.submitAll rest
    (entries :: others, last)

/-- What a line may lead to. -/
inductive Logged : List Entry → Prop where
  | nothing : Logged []
  | error (source message : Text) : Logged [.error source message]
  | output (text : Text) : Logged [.output text]
  | result (source output : Text) : Logged [.source source, .result output]

/-- Whether a trimmed line is a source to evaluate. -/
def isSource (line : Text) : Bool := !line.isEmpty && line.head? != some (unit ':')

/-- The sources after the last line that resets the session. -/
def sourcesSinceReset (lines : List Text) : List Text :=
  ((lines.map trim).rtakeWhile (commandWord · != utf16 ":reset")).filter isSource

section Step

/-- The shell with a changed session, left if it was or if it is now. -/
def changed (sh : Shell) (next : Session → Session) (left : Bool) : Shell :=
  { sh with session := next sh.session, done := sh.done || left }

theorem changed_id (sh : Shell) : sh.changed id false = sh := by
  simp [changed]

/-- However the operation ends, it changes the shell by `next` and `left` and nothing else. -/
def Changes (m : ShellM α) (next : Session → Session) (left : Bool) (Q : α → Prop) : Prop :=
  ∀ sh, match m sh with
    | .ok a sh' => sh' = sh.changed next left ∧ Q a
    | .error _ sh' => sh' = sh.changed next left

namespace Changes

theorem pure {Q : α → Prop} (holds : Q a) : Changes (pure a) id false Q :=
  fun sh => ⟨sh.changed_id.symm, holds⟩

theorem fail {Q : α → Prop} (f : Failure) : Changes (throw f) id false Q :=
  fun sh => sh.changed_id.symm

theorem ofExcept (e : Except Failure α) : Changes (ofExcept e) id false fun _ => True := by
  cases e with
  | ok a => exact pure trivial
  | error f => exact fail f

theorem get : Changes get id false fun _ => True := fun sh => ⟨sh.changed_id.symm, trivial⟩

theorem lift (m : SessionM α) : Changes (lift m) m.after false fun _ => True := by
  intro sh
  unfold Shell.lift SessionM.after
  cases run : m sh.session with
  | ok a s => simp [changed, run]
  | error f s => simp [changed, run]

/-- What follows the operation changes nothing more. -/
theorem bind {m : ShellM α} {q : α → ShellM β} {P : α → Prop} {Q : β → Prop}
    (first : Changes m next left P) (rest : ∀ a, Changes (q a) id false Q) :
    Changes (m >>= q) next left Q := by
  intro sh
  have ends := first sh
  simp only [Bind.bind, EStateM.bind]
  cases run : m sh with
  | error f sh' =>
    rw [run] at ends
    exact ends
  | ok a sh' =>
    rw [run] at ends
    have last := rest a sh'
    rw [changed_id, ends.1] at last
    rw [ends.1]
    exact last

end Changes

theorem changes_source (line : Text) :
    Changes (source line) (Session.evaluate line).after false Logged := by
  apply (Changes.lift (Session.evaluate line)).bind
  intro v
  apply (Changes.ofExcept v.print).bind
  intro text
  exact .pure (.result line text)

/-- What a command does to the session. -/
def commandEffect (word : Text) : Session → Session :=
  if word = utf16 ":reset" then SessionM.after Session.reset else id

/-- What a trimmed line does to the session. -/
def effect (line : Text) : Session → Session :=
  if isSource line then (Session.evaluate line).after else commandEffect (commandWord line)

theorem Changes.command {m : ShellM (List Entry)} (changes : Changes m id false Logged)
    (noReset : word ≠ utf16 ":reset") (noQuit : word ≠ utf16 ":quit") :
    Changes m (commandEffect word) (word = utf16 ":quit") Logged := by
  rw [commandEffect, if_neg noReset, decide_eq_false noQuit]
  exact changes

theorem changes_output (text : Except Failure Text) :
    Changes (do return [.output (← Shell.ofExcept text)]) id false Logged := by
  apply (Changes.ofExcept text).bind
  intro shown
  exact .pure (.output shown)

theorem changes_command (line : Text) :
    Changes (command line) (commandEffect (commandWord line))
      (commandWord line = utf16 ":quit") Logged := by
  unfold command
  generalize commandWord line = word
  simp only [beq_iff_eq]
  split
  · subst word
    exact Changes.command (.pure (.output helpText)) (by decide) (by decide)
  split
  · subst word
    exact Changes.command (.pure (.output _)) (by decide) (by decide)
  split
  · subst word
    exact (changes_output _).command (by decide) (by decide)
  split
  · subst word
    exact (Changes.get.bind fun sh => changes_output _).command (by decide) (by decide)
  split
  · subst word
    exact (Changes.lift Session.reset).bind fun _ => .pure (.output _)
  next noReset =>
    split
    next quits =>
      rw [commandEffect, if_neg noReset, decide_eq_true quits]
      exact fun sh => ⟨by simp [changed], .nothing⟩
    next noQuit => exact Changes.command (.fail _) noReset noQuit

theorem not_isSource_of_commandWord (word : commandWord line = unit ':' :: rest) :
    isSource line = false := by
  cases line with
  | nil => rfl
  | cons u line =>
    have colon : u = unit ':' := by
      rw [commandWord, List.takeWhile_cons] at word
      split at word
      · exact (List.cons.inj word).1
      · cases word
    simp [isSource, colon]

theorem changes_answer (line : Text) (present : line ≠ []) :
    Changes (answer line) (effect line) (commandWord line = utf16 ":quit") Logged := by
  unfold answer effect
  by_cases colon : line.head? = some (unit ':')
  · simp only [isSource, colon, BEq.rfl, if_true, bne_self_eq_false, Bool.and_false,
      Bool.false_eq_true, if_false]
    exact changes_command line
  · have source : isSource line = true := by simp [isSource, colon, present]
    have noQuit : commandWord line ≠ utf16 ":quit" := fun quits =>
      Bool.false_ne_true ((not_isSource_of_commandWord quits).symm.trans source)
    simp only [beq_iff_eq, colon, if_false, source, if_true, decide_eq_false noQuit]
    exact changes_source line

/-- A line is remembered unless it is blank, has its effect on the session, may leave the console,
and what it leads to is logged. -/
theorem submit_eq (sh : Shell) (line : Text) : ∃ entries, Logged entries ∧
    sh.submit line = (entries,
      ({ sh with history := sh.history ++ [trim line].filter (· ≠ []) }.changed
        (effect (trim line)) (commandWord (trim line) = utf16 ":quit")).log entries) := by
  unfold submit
  generalize trim line = line
  by_cases blank : line = []
  · subst line
    have still : effect [] = id := rfl
    have stays : decide (commandWord [] = utf16 ":quit") = false := rfl
    refine ⟨[], .nothing, ?_⟩
    simp only [still, stays, changed_id, log]
    simp
  · have ends := changes_answer line blank { sh with history := sh.history ++ [line] }
    simp only [List.isEmpty_iff, blank, if_false]
    rw [List.filter_cons_of_pos (by simpa using blank), List.filter_nil]
    cases run : answer line { sh with history := sh.history ++ [line] } with
    | ok entries sh' =>
      rw [run] at ends
      exact ⟨entries, ends.2, by rw [ends.1]⟩
    | error f sh' =>
      rw [run] at ends
      exact ⟨_, .error line f.message, by rw [ends]⟩

end Step

/-- What the shell holds after lines that led to the replies, in terms of a session that has just
started. -/
structure Tracks (depth : Nat) (entries : List Text) (fresh : Session) (lines : List Text)
    (replies : List (List Entry)) (sh : Shell) : Prop where
  history : sh.history = (lines.map trim).filter (· ≠ [])
  log : sh.entries = replies.flatten
  logged : ∀ reply ∈ replies, Logged reply
  session : Session.Alike depth entries sh.session
    ((sourcesSinceReset lines).foldl (fun s line => (Session.evaluate line).after s) fresh)
  done : sh.done = true ↔ ∃ line ∈ lines, commandWord (trim line) = utf16 ":quit"

section Run

variable {depth : Nat} {entries lines : List Text} {fresh : Session}

theorem sourcesSinceReset_reset (lines : List Text)
    (resets : commandWord (trim line) = utf16 ":reset") :
    sourcesSinceReset (lines ++ [line]) = [] := by
  rw [sourcesSinceReset, List.map_append, List.map_singleton, List.rtakeWhile_concat_neg]
  · rfl
  · simp [resets]

theorem sourcesSinceReset_append (lines : List Text)
    (noReset : commandWord (trim line) ≠ utf16 ":reset") :
    sourcesSinceReset (lines ++ [line]) = sourcesSinceReset lines ++ [trim line].filter isSource := by
  rw [sourcesSinceReset, List.map_append, List.map_singleton, List.rtakeWhile_concat_pos,
    List.filter_append]
  · rfl
  · simp [noReset]

/-- What a line does to the session is what its source does to the session it is compared with. -/
theorem alike_effect (created : Session.create depth entries = .ok fresh)
    (alike : Session.Alike depth entries s
      ((sourcesSinceReset lines).foldl (fun s line => (Session.evaluate line).after s) fresh))
    (line : Text) : Session.Alike depth entries (effect (trim line) s)
      ((sourcesSinceReset (lines ++ [line])).foldl (fun s line => (Session.evaluate line).after s)
        fresh) := by
  by_cases resets : commandWord (trim line) = utf16 ":reset"
  · obtain ⟨s', run, renewed⟩ := Session.reset_of_create created alike
    have moved : effect (trim line) s = s' := by
      rw [effect, not_isSource_of_commandWord resets, commandEffect, if_pos resets]
      simp [SessionM.after, run]
    rw [sourcesSinceReset_reset lines resets, moved]
    exact renewed
  · rw [sourcesSinceReset_append lines resets, List.foldl_append]
    by_cases source : isSource (trim line) = true
    · rw [effect, if_pos source, List.filter_cons_of_pos source]
      exact (Session.mirrors_evaluate _).after alike
    · rw [effect, if_neg source, commandEffect, if_neg resets, List.filter_cons_of_neg source]
      exact alike

theorem Tracks.submit (created : Session.create depth entries = .ok fresh)
    (tracks : Tracks depth entries fresh lines replies sh) (line : Text) :
    Tracks depth entries fresh (lines ++ [line]) (replies ++ [(sh.submit line).1])
      (sh.submit line).2 := by
  obtain ⟨reply, logged, run⟩ := sh.submit_eq line
  rw [run]
  constructor
  · simp only [Shell.log, changed, tracks.history, List.map_append, List.filter_append,
      List.map_singleton]
  · simp [Shell.log, changed, tracks.log]
  · intro other member
    rcases List.mem_append.mp member with member | member
    · exact tracks.logged other member
    · rw [List.mem_singleton.mp member]
      exact logged
  · exact alike_effect created tracks.session line
  · simp [Shell.log, changed, tracks.done, or_and_right, exists_or]

theorem Tracks.submitAll (created : Session.create depth entries = .ok fresh)
    (tracks : Tracks depth entries fresh lines replies sh) (more : List Text) :
    Tracks depth entries fresh (lines ++ more) (replies ++ (sh.submitAll more).1)
      (sh.submitAll more).2 := by
  induction more generalizing lines replies sh with
  | nil => simpa [Shell.submitAll] using tracks
  | cons line more ih =>
    have rest := ih (tracks.submit created line)
    simpa [Shell.submitAll] using rest

end Run

/-- After any lines, the history holds those that are not blank, the log holds what was returned
for each line, the global bindings show what they show in a new session that evaluated the sources
since the last reset, and the console was left if and only if some line asked for that. -/
theorem submitAll_tracks (depth : Nat) (entries : List Text) (sh : Shell)
    (created : Shell.create depth entries = .ok sh) (lines : List Text) :
    (sh.submitAll lines).2.history = (lines.map trim).filter (· ≠ []) ∧
    ((sh.submitAll lines).2.entries = (sh.submitAll lines).1.flatten ∧
      ∀ reply ∈ (sh.submitAll lines).1, Logged reply) ∧
    (∃ fresh, Session.create depth entries = .ok fresh ∧
      (sh.submitAll lines).2.session.bindings.shown =
        ((sourcesSinceReset lines).foldl (fun s line => (Session.evaluate line).after s)
          fresh).bindings.shown) ∧
    ((sh.submitAll lines).2.done = true ↔
      ∃ line ∈ lines, commandWord (trim line) = utf16 ":quit") := by
  unfold Shell.create at created
  cases started : Session.create depth entries with
  | error f =>
    rw [started] at created
    cases created
  | ok fresh =>
    rw [started] at created
    cases created
    have start : Tracks depth entries fresh [] [] ⟨fresh, [], [], false⟩ :=
      ⟨rfl, rfl, nofun, Session.alike_of_create started, by simp⟩
    have tracks := start.submitAll started lines
    rw [List.nil_append, List.nil_append] at tracks
    exact ⟨tracks.history, ⟨tracks.log, tracks.logged⟩,
      ⟨fresh, rfl, tracks.session.bindings⟩, tracks.done⟩

/-- A source, a reset, a blank line, a source that fails in its middle, and a command to leave. -/
def mixedLines : List Text :=
  [utf16 "let b = a", utf16 " :reset", utf16 "  ", utf16 "let c = a; c / 0 ", utf16 ":quit now"]

theorem submitAll_tracks_mixed : ∃ sh fresh, Shell.create 8 [utf16 "let a = 1;"] = .ok sh ∧
    Session.create 8 [utf16 "let a = 1;"] = .ok fresh ∧
    (sh.submitAll mixedLines).2.history = [utf16 "let b = a", utf16 ":reset",
      utf16 "let c = a; c / 0", utf16 ":quit now"] ∧
    (sh.submitAll mixedLines).2.session.bindings.shown =
      ((Session.evaluate (utf16 "let c = a; c / 0")).after fresh).bindings.shown ∧
    (sh.submitAll mixedLines).2.done = true := by
  have starts : (Shell.create 8 [utf16 "let a = 1;"]).isOk = true := by decide +kernel
  cases created : Shell.create 8 [utf16 "let a = 1;"] with
  | error f =>
    rw [created] at starts
    cases starts
  | ok sh =>
    obtain ⟨history, -, ⟨fresh, started, bindings⟩, done⟩ :=
      submitAll_tracks 8 _ sh created mixedLines
    have sources : sourcesSinceReset mixedLines = [utf16 "let c = a; c / 0"] := by decide +kernel
    rw [sources] at bindings
    refine ⟨sh, fresh, rfl, started, history.trans (by decide +kernel), bindings, done.mpr ?_⟩
    exact ⟨utf16 ":quit now", by simp [mixedLines], by decide +kernel⟩

end Shell
end Monkey
