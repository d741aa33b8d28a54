import Monkey.Eval.Basic

/-! A session evaluates sources one after another in one global frame. Its entries
are evaluated first, when it is created and whenever it is reset. -/
namespace Monkey

structure Session where
  /-- How deep evaluation may nest. -/
  depth : Nat
  entries : List Text
  store : Store
  /-- The global frame. -/
  env : FrameId

abbrev SessionM := EStateM Failure Session

/-- The parse of a source, whatever diagnostics it has. -/
def parseSource (source : Text) : Except Failure Parse :=
  match parse source with
  | .ok p => .ok p
  | .error f => .error (.ofFault f)

/-- The parse of a source that has no diagnostics. -/
def parseClean (source : Text) : Except Failure Parse :=
  match parseSource source with
  | .ok p => if p.diagnostics.isEmpty then .ok p else .error (.rejected p.diagnostics)
  | .error f => .error f

namespace Session

/-- Runs an evaluation on the store; its effects stay when it fails. -/
def lift (m : Eval α) : SessionM α := fun s =>
  match m s.store with
  | .ok a store => .ok a { s with store }
  | .error f store => .error f { s with store }

def evaluateProgram (body : List Node) : SessionM Value := do
  let s ← get
  lift (Monkey.evaluateProgram s.depth body s.env)

/-- A source with diagnostics evaluates nothing. -/
def evaluate (source : Text) : SessionM Value :=
  match parseClean source with
  | .ok p => evaluateProgram p.statements
  | .error f => throw f

def load : List Text → SessionM Unit
  | [] => return ()
  | source :: rest => do
    let _ ← evaluate source
    load rest

/-- Leaves the global frame for a new one. -/
def freshEnv : SessionM Unit := do
  let env ← lift (Eval.newFrame none)
  modify fun s => { s with env }

def reset : SessionM Unit := do
  freshEnv
  load (← get).entries

/-- A session in which nothing has been evaluated yet. -/
def blank (depth : Nat) (entries : List Text) : Session :=
  ⟨depth, entries, (Store.empty.alloc none).2, (Store.empty.alloc none).1⟩

def create (depth : Nat) (entries : List Text) : Except Failure Session :=
  match load entries (blank depth entries) with
  | .ok _ s => .ok s
  | .error f _ => .error f

def bindings (s : Session) : Bindings := s.store.bindings s.env

def lookup (s : Session) (name : Text) : Option Value := s.store.lookup s.env name

end Session
end Monkey
