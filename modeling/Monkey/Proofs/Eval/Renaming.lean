import Monkey.Proofs.Eval.Transparency

/-! Lexical scope: a parameter may have any name that is new to its function. The frames of a
call of the renamed function, and of calls of functions made inside it, bind the new name where
those of the original bind the old one; in all other frames names stay as they are. -/
namespace Monkey

/-- Names other than `y` stay apart when `y` takes the place of `x`. -/
theorem replacing_inj (other : a ≠ y) (other' : b ≠ y)
    (same : replacing x y a = replacing x y b) : a = b := by
  unfold replacing at same
  split at same
  next first =>
    split at same
    next second => exact first.trans second.symm
    next => exact absurd same.symm other'
  next =>
    split at same
    next => exact absurd same other
    next => exact same

/-- Frames inside the renamed function have `y` for `x`; in the others names are the same. -/
def renamedInside (x y : Text) : Vocabulary where
  kind := Bool
  naming
    | false => Eq
    | true => fun a b => a ≠ y ∧ b = replacing x y a
  oneToOne
    | false => by
      rintro rfl rfl
      rfl
    | true => by
      rintro ⟨other, rfl⟩ ⟨other', rfl⟩
      exact ⟨congrArg _, replacing_inj other other'⟩

namespace Bindings

/-- What has been bound stays bound. -/
theorem get?_foldl_eq_none {pairs : List (Text × Value)} {bs : Bindings}
    (unbound : (pairs.foldl (fun bs b => bs.insert b.1 b.2) bs).get? x = none) :
    x ∉ pairs.map (·.1) ∧ bs.get? x = none := by
  induction pairs generalizing bs with
  | nil => exact ⟨by simp, unbound⟩
  | cons p pairs ih =>
    obtain ⟨later, here⟩ := ih unbound
    rw [get?_insert] at here
    split at here
    · cases here
    next other => exact ⟨by simp [later, Ne.symm other], here⟩

theorem not_mem_of_get?_ofArguments (count : args.length = params.length)
    (unbound : (ofArguments params args).get? x = none) : x ∉ params := by
  have free := (get?_foldl_eq_none unbound).1
  rwa [List.map_fst_zip (Nat.le_of_eq count.symm)] at free

end Bindings

/-- Applying a function gives the same outcome under every new name of a parameter. -/
theorem applyFunction_rename {s : Store} (sound : s.Scoped) (depth : Nat) (params : List Text)
    (body : List Node) (x y : Text) (param : x ∈ params)
    (fresh : y ∉ (Node.fnLit params body).names) (env : FrameId) (inside : env < s.frames.size)
    (args : List Value) (within : ∀ v ∈ args, v.Within s.frames.size) (stamp stamp' : Nat) :
    Eval.SameOutcome (fun _ _ => True)
      (applyFunction depth ⟨params, body, env, stamp⟩ args s)
      (applyFunction depth ⟨params.map (replacing x y), Node.renameIn (replacing x y) body, env,
        stamp'⟩ args s) := by
  have self : ∀ a, (renamedInside x y).naming false a a := fun _ => rfl
  have renamed : ∀ a ∈ params ++ Node.namesIn body,
      (renamedInside x y).naming true a (replacing x y a) := by
    rintro a occurs
    refine ⟨?_, rfl⟩
    rintro rfl
    exact fresh occurs
  obtain ⟨inParams, inBody⟩ := List.forall_mem_append.mp renamed
  -- A name that the call leaves open is not `x`, and every other name is left as it is.
  have passes : args.length = params.length →
      (renamedInside x y).Passes true false (.ofArguments params args) := by
    rintro count a b ⟨-, rfl⟩ unbound
    have other : a ≠ x := by
      rintro rfl
      exact Bindings.not_mem_of_get?_ofArguments count unbound param
    exact (if_neg other).symm
  have calls := Eval.mirrors_apply (Eval.mirrors_node depth) (W := renamedInside x y)
    (P := .upTo s.frames.size false) (f := ⟨params, body, env, stamp⟩)
    (g := ⟨params.map (replacing x y), Node.renameIn (replacing x y) body, env, stamp'⟩)
    ⟨rfl, inside, rfl⟩ (Node.forall₂_map params inParams) (Node.alike_renameIn body inBody)
    (List.forall₂_same.mpr fun v member => (within v member).alike self) passes
  have alike := Store.Scoped.alike self sound (refl_of Store.KeptIn s)
  exact (calls _ (le_refl _) s s alike).sameOutcome fun _ _ _ _ => trivial

/-- The body `let g = fn(z) { x + z }; g(x)`. -/
def doubling : List Node :=
  [.letStmt (utf16 "g") (.fnLit [utf16 "z"]
      [.exprStmt (.binary (utf16 "+") (.ident (utf16 "x")) (.ident (utf16 "z")))]),
    .exprStmt (.call (.ident (utf16 "g")) [.ident (utf16 "x")])]

/-- One frame, in which `y` is 100. -/
def boundOutside : Store := ⟨#[⟨[(utf16 "y", .int 100)], none⟩], 0⟩

/-- The parameter of `fn(x) { let g = fn(z) { x + z }; g(x) }` may be called `y`, although `y`
is bound outside. -/
theorem applyFunction_rename_doubling : boundOutside.Scoped ∧
    utf16 "y" ∉ (Node.fnLit [utf16 "x"] doubling).names ∧
    (∃ t, applyFunction 5 ⟨[utf16 "x"], doubling, 0, 0⟩ [.int 3] boundOutside =
      .ok (.int 6) t) ∧
    Eval.SameOutcome (fun _ _ => True)
      (applyFunction 5 ⟨[utf16 "x"], doubling, 0, 0⟩ [.int 3] boundOutside)
      (applyFunction 5 ⟨[utf16 "y"],
        Node.renameIn (replacing (utf16 "x") (utf16 "y")) doubling, 0, 1⟩ [.int 3]
        boundOutside) := by
  have sound : boundOutside.Scoped := by
    rintro (_ | e) f found
    · cases found
      exact ⟨nofun, by simp [boundOutside, Value.Within]⟩
    · cases found
  have fresh : utf16 "y" ∉ (Node.fnLit [utf16 "x"] doubling).names := by decide
  have within : ∀ v ∈ [Value.int 3], v.Within boundOutside.frames.size := by
    simp [Value.Within]
  exact ⟨sound, fresh, ⟨_, rfl⟩, applyFunction_rename sound 5 [utf16 "x"] doubling (utf16 "x")
    (utf16 "y") (by decide) fresh 0 (by decide) [.int 3] within 0 1⟩

end Monkey
