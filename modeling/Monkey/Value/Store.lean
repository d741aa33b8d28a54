import Monkey.Value.Basic

/-! Frames of bindings. A frame keeps its names in the order of their first definition
and points outwards to the frame it is nested in. Frames live in a store and are named
by their place in it, so that functions can share them. -/
namespace Monkey

abbrev Bindings := List (Text × Value)

namespace Bindings

/-- A name that is bound already keeps its place. -/
def insert (name : Text) (value : Value) : Bindings → Bindings
  | [] => [(name, value)]
  | (n, v) :: rest => if n = name then (name, value) :: rest else (n, v) :: insert name value rest

def get? (name : Text) : Bindings → Option Value
  | [] => none
  | (n, v) :: rest => if n = name then some v else get? name rest

def names (bs : Bindings) : List Text := bs.map (·.1)

theorem get?_insert (bs : Bindings) (name other : Text) (v : Value) :
    (bs.insert name v).get? other = if name = other then some v else bs.get? other := by
  induction bs with
  | nil => rfl
  | cons b bs ih =>
    obtain ⟨n, w⟩ := b
    by_cases same : n = name
    · subst same
      by_cases here : n = other <;> simp [insert, get?, here]
    · by_cases here : n = other
      · subst here
        simp [insert, get?, same, Ne.symm same]
      · simp [insert, get?, same, here, ih]

theorem names_insert (bs : Bindings) (name : Text) (v : Value) :
    (bs.insert name v).names = if name ∈ bs.names then bs.names else bs.names ++ [name] := by
  induction bs with
  | nil => rfl
  | cons b bs ih =>
    obtain ⟨n, w⟩ := b
    simp only [names] at ih
    by_cases same : n = name
    · simp [insert, names, same]
    · simp only [insert, same, if_false, names, List.map_cons, ih, List.mem_cons, Ne.symm same,
        false_or]
      by_cases bound : name ∈ bs.map (·.1) <;> simp [bound]

/-- Binds names to values one after another. -/
def ofArguments (params : List Text) (args : List Value) : Bindings :=
  (params.zip args).foldl (fun bs b => bs.insert b.1 b.2) []

end Bindings

structure Frame where
  bindings : Bindings
  outer : Option FrameId

structure Store where
  frames : Array Frame
  /-- How many functions were made. -/
  closures : Nat

namespace Store

def empty : Store := ⟨#[], 0⟩

def frame? (s : Store) (id : FrameId) : Option Frame := s.frames[id]?

def bindings (s : Store) (id : FrameId) : Bindings :=
  ((s.frame? id).map (·.bindings)).getD []

def outer? (s : Store) (id : FrameId) : Option FrameId := (s.frame? id).bind (·.outer)

/-- Adds a frame; its place is the number of frames before. -/
def push (s : Store) (f : Frame) : FrameId × Store :=
  (s.frames.size, { s with frames := s.frames.push f })

def alloc (s : Store) (outer : Option FrameId) : FrameId × Store := s.push ⟨[], outer⟩

def define (s : Store) (id : FrameId) (name : Text) (value : Value) : Store :=
  { s with frames := s.frames.modify id fun f => { f with bindings := f.bindings.insert name value } }

theorem frame?_push (s : Store) (f : Frame) (id : FrameId) :
    (s.push f).2.frame? id = if id = s.frames.size then some f else s.frame? id :=
  Array.getElem?_push

theorem frame?_define (s : Store) (id other : FrameId) (name : Text) (v : Value) :
    (s.define id name v).frame? other =
      if id = other then
        (s.frame? other).map fun f => { f with bindings := f.bindings.insert name v }
      else s.frame? other :=
  Array.getElem?_modify

@[simp] theorem size_push (s : Store) (f : Frame) :
    (s.push f).2.frames.size = s.frames.size + 1 :=
  Array.size_push f

@[simp] theorem size_define (s : Store) (id : FrameId) (name : Text) (v : Value) :
    (s.define id name v).frames.size = s.frames.size :=
  Array.size_modify

theorem frame?_lt {s : Store} {id : FrameId} (found : s.frame? id = some f) :
    id < s.frames.size :=
  (Array.getElem?_eq_some_iff.mp found).1

theorem bindings_define (s : Store) (id other : FrameId) (name : Text) (v : Value)
    (inside : id < s.frames.size) :
    (s.define id name v).bindings other =
      if id = other then (s.bindings id).insert name v else s.bindings other := by
  simp only [bindings, frame?, define, Array.getElem?_modify]
  split
  · subst id
    simp [inside]
  · rfl

theorem bindings_of_frame? {s : Store} {id : FrameId} (found : s.frame? id = some f) :
    s.bindings id = f.bindings := by
  rw [bindings, found]
  rfl

theorem outer?_of_frame? {s : Store} {id : FrameId} (found : s.frame? id = some f) :
    s.outer? id = f.outer := by
  rw [outer?, found]
  rfl

/-- A definition moves no frame. -/
theorem outer?_define (s : Store) (id other : FrameId) (name : Text) (v : Value) :
    (s.define id name v).outer? other = s.outer? other := by
  simp only [outer?, frame?, define, Array.getElem?_modify]
  split
  · cases s.frames[other]? <;> rfl
  · rfl

/-- The frames from `id` outwards, at most `fuel` of them. -/
def chainFrom (s : Store) : Nat → FrameId → List FrameId
  | 0, _ => []
  | fuel + 1, id =>
    match s.outer? id with
    | none => [id]
    | some o => id :: s.chainFrom fuel o

/-- The frames outwards are read off the frames on the way. -/
theorem chainFrom_congr {s t : Store} {fuel : Nat} {id : FrameId}
    (same : ∀ d ∈ s.chainFrom fuel id, t.outer? d = s.outer? d) :
    t.chainFrom fuel id = s.chainFrom fuel id := by
  induction fuel generalizing id with
  | zero => rfl
  | succ fuel ih =>
    unfold chainFrom at same ⊢
    cases outer : s.outer? id with
    | none =>
      rw [outer] at same
      rw [same id List.mem_cons_self, outer]
    | some o =>
      rw [outer] at same
      rw [same id List.mem_cons_self, outer]
      exact congrArg (id :: ·) (ih fun d member => same d (List.mem_cons_of_mem _ member))

/-- Looking outwards from a frame is looking in it and then outwards from its outer frame. -/
theorem findSome?_chainFrom (s : Store) (fuel : Nat) (id : FrameId) (g : FrameId → Option α) :
    (s.chainFrom (fuel + 1) id).findSome? g =
      (g id).or ((s.outer? id).bind fun o => (s.chainFrom fuel o).findSome? g) := by
  rw [chainFrom]
  cases s.outer? id with
  | none => cases here : g id <;> simp [here]
  | some o => cases here : g id <;> simp [here]

/-- The frames from `id` outwards. A frame is nested in an earlier one, so there are
at most as many as frames up to `id`. -/
def chain (s : Store) (id : FrameId) : List FrameId := s.chainFrom (id + 1) id

/-- The value of a name in the innermost frame that binds it. -/
def lookup (s : Store) (id : FrameId) (name : Text) : Option Value :=
  (s.chain id).findSome? fun f => (s.bindings f).get? name

/-- The names bound in each frame from `id` outwards. -/
def scopes (s : Store) (id : FrameId) : List (List Text) :=
  (s.chain id).map fun f => (s.bindings f).names

end Store
end Monkey
