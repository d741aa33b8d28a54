import Mathlib.Data.List.Basic
import Monkey.Proofs.Eval.Nesting

/-! What a name means from a frame. Frames are shared, so one definition is seen from every frame
that is nested in its frame, unless a frame on the way binds the name itself, and from no other
frame. A new frame sees its own arguments first and then what its outer frame sees, whatever is
defined there later. -/
namespace Monkey

namespace Bindings

variable {pairs : List (Text × Value)} {bs : Bindings} {y : Text}

/-- A name that is not bound on the way is bound as before. -/
theorem get?_foldl_of_absent (absent : ∀ p ∈ pairs, p.1 ≠ y) :
    (pairs.foldl (fun bs b => bs.insert b.1 b.2) bs).get? y = bs.get? y := by
  induction pairs generalizing bs with
  | nil => rfl
  | cons p pairs ih =>
    obtain ⟨other, absent⟩ := List.forall_mem_cons.mp absent
    rw [List.foldl_cons, ih absent, get?_insert, if_neg other]

/-- The last binding of a name counts. -/
theorem get?_foldl_of_last (here : pairs[i]? = some (y, v))
    (last : ∀ p ∈ pairs.drop (i + 1), p.1 ≠ y) :
    (pairs.foldl (fun bs b => bs.insert b.1 b.2) bs).get? y = some v := by
  induction pairs generalizing bs i with
  | nil => cases here
  | cons p pairs ih =>
    cases i with
    | zero =>
      obtain rfl : p = (y, v) := Option.some.inj here
      have later : ∀ p ∈ pairs, p.1 ≠ y := last
      rw [List.foldl_cons, get?_foldl_of_absent later, get?_insert, if_pos rfl]
    | succ i => exact ih here last

theorem get?_ofArguments_of_absent (absent : y ∉ params) (args : List Value) :
    (ofArguments params args).get? y = none := by
  refine get?_foldl_of_absent fun p member => ?_
  rintro rfl
  exact absent (List.of_mem_zip member).1

/-- Of arguments for one name the last one counts. -/
theorem get?_ofArguments_of_last {params : List Text} {args : List Value} {i : Nat}
    (name : params[i]? = some y) (value : args[i]? = some v)
    (last : ∀ j, i < j → params[j]? ≠ some y) :
    (ofArguments params args).get? y = some v := by
  refine get?_foldl_of_last (i := i) (List.getElem?_zip_eq_some.mpr ⟨name, value⟩) ?_
  rintro p member rfl
  obtain ⟨j, at_⟩ := List.mem_iff_getElem?.mp member
  rw [List.getElem?_drop] at at_
  exact last (i + 1 + j) (by omega) (List.getElem?_zip_eq_some.mp at_).1

end Bindings

namespace Store

/-- The stores that new frames, definitions and extensions lead to, whatever values they are given,
failing extensions included. -/
inductive Leads (s : Store) : Store → Prop where
  | refl : Leads s s
  | newFrame : Leads s t → (∀ o, outer = some o → o < t.frames.size) →
      Leads s ((Eval.newFrame outer).after t)
  | define : Leads s t → e < t.frames.size → Leads s ((Eval.define e name v).after t)
  | extend : Leads s t → outer < t.frames.size → Leads s ((Eval.extend params args outer).after t)

variable {s t : Store}

section Chains

/-- A frame has one path outwards. -/
theorem Outward.unique (first : s.Outward e path) (second : s.Outward e path') : path = path' := by
  induction first generalizing path' with
  | last outer =>
    cases second with
    | last => rfl
    | next outer' => rw [outer] at outer'; cases outer'
  | next outer _ ih =>
    cases second with
    | last outer' => rw [outer] at outer'; cases outer'
    | next outer' second =>
      obtain rfl := Option.some.inj (outer.symm.trans outer')
      rw [ih second]

theorem Layered.outward_chain (layered : s.Layered) (e : FrameId) : s.Outward e (s.chain e) :=
  layered.outward_chainFrom (Nat.lt_succ_self e)

theorem Layered.chainFrom_eq (layered : s.Layered) (enough : e < fuel) :
    s.chainFrom fuel e = s.chain e :=
  (layered.outward_chainFrom enough).unique (layered.outward_chain e)

theorem Layered.chain_le (layered : s.Layered) (member : d ∈ s.chain e) : d ≤ e :=
  ((layered.outward_chain e).descends layered).2 d member

theorem Layered.nodup_chain (layered : s.Layered) (e : FrameId) : (s.chain e).Nodup :=
  ((layered.outward_chain e).descends layered).1.imp Nat.ne_of_gt

theorem KeptOuter.outer?_eq (kept : s.KeptOuter t) (inside : e < s.frames.size) :
    t.outer? e = s.outer? e := by
  have found : s.frame? e = some s.frames[e] := Array.getElem?_eq_getElem inside
  obtain ⟨g, found', outer⟩ := kept e _ found
  rw [outer?_of_frame? found, outer?_of_frame? found', outer]

theorem layered_push (layered : s.Layered) (f : Frame)
    (below : ∀ o, f.outer = some o → o < s.frames.size) : (s.push f).2.Layered := by
  intro e o outer
  rw [outer?, frame?_push] at outer
  split at outer
  next last => exact last ▸ below o outer
  next => exact layered e o outer

theorem layered_define (layered : s.Layered) (e : FrameId) (name : Text) (v : Value) :
    (s.define e name v).Layered := by
  intro d o outer
  rw [outer?_define] at outer
  exact layered d o outer

end Chains

section Extension

/-- Names that match their values make a frame, and others are refused. -/
theorem extend_run (params : List Text) (args : List Value) (outer : FrameId) (s : Store) :
    Eval.extend params args outer s =
      if params.length = args.length then
        .ok s.frames.size (s.push ⟨.ofArguments params args, some outer⟩).2
      else .error (.unmatchedNames params args) s := by
  unfold Eval.extend
  split <;> rfl

theorem Leads.layered (leads : s.Leads t) (layered : s.Layered) : t.Layered := by
  induction leads with
  | refl => exact layered
  | newFrame _ below ih => exact layered_push ih _ below
  | define _ _ ih => exact layered_define ih _ _ _
  | @extend t outer params args _ inside ih =>
    unfold Eval.after
    rw [extend_run]
    by_cases count : params.length = args.length
    · rw [if_pos count]
      refine layered_push ih _ ?_
      rintro o ⟨⟩
      exact inside
    · rw [if_neg count]
      exact ih

theorem Leads.orderly (leads : s.Leads t) : s.Orderly t := by
  induction leads with
  | refl => exact refl_of Orderly s
  | newFrame _ _ ih => exact trans_of _ ih (orderly_push (f := ⟨[], _⟩) List.nodup_nil)
  | define _ _ ih => exact trans_of _ ih (orderly_define _ _ _ _)
  | extend _ _ ih => exact trans_of _ ih (Eval.orderly_extend _ _ _ _)

end Extension

section Lookup

theorem chain_define (s : Store) (f : FrameId) (x : Text) (v : Value) (e : FrameId) :
    (s.define f x v).chain e = s.chain e :=
  chainFrom_congr fun d _ => s.outer?_define f d x v

theorem findSome?_congr {ds : List FrameId} {g h : FrameId → Option Value}
    (same : ∀ d ∈ ds, g d = h d) : ds.findSome? g = ds.findSome? h := by
  rw [← List.head?_filterMap, ← List.head?_filterMap, List.filterMap_congr same]

/-- Looking up after a definition looks at the same frames, one of them with the definition. -/
theorem lookup_define_eq (inside : f < s.frames.size) (x : Text) (v : Value) (e : FrameId)
    (y : Text) : (s.define f x v).lookup e y = (s.chain e).findSome? fun d =>
      if f = d ∧ x = y then some v else (s.bindings d).get? y := by
  rw [lookup, chain_define]
  congr 1
  funext d
  rw [bindings_define s f d x v inside]
  by_cases here : f = d
  · subst here
    simp [Bindings.get?_insert]
  · simp [here]

/-- From `e`, looking outwards for `x` comes to `f` past frames that do not bind it. -/
def Exposes (s : Store) (e f : FrameId) (x : Text) : Prop :=
  ∃ near far, s.Outward e (near ++ f :: far) ∧ ∀ d ∈ near, (s.bindings d).get? x = none

variable (layered : s.Layered)
include layered

theorem lookup_define_exposed (inside : f < s.frames.size) (v : Value)
    (exposed : s.Exposes e f x) : (s.define f x v).lookup e x = some v := by
  obtain ⟨near, far, outward, free⟩ := exposed
  have chain := outward.unique (layered.outward_chain e)
  have distinct := layered.nodup_chain e
  rw [← chain] at distinct
  have away : f ∉ near := fun member =>
    (List.nodup_append.mp distinct).2.2 f member f List.mem_cons_self rfl
  have skipped : near.findSome? (fun d =>
      if f = d ∧ x = x then some v else (s.bindings d).get? x) = none := by
    refine List.findSome?_eq_none_iff.mpr fun d member => ?_
    rw [if_neg fun (here : f = d ∧ x = x) => away (here.1 ▸ member), free d member]
  rw [lookup_define_eq inside, ← chain, List.findSome?_append, skipped]
  simp

theorem lookup_define_hidden (inside : f < s.frames.size) (v : Value)
    (hidden : ¬(y = x ∧ s.Exposes e f x)) : (s.define f x v).lookup e y = s.lookup e y := by
  rw [lookup_define_eq inside, lookup]
  by_cases named : x = y
  · subst named
    by_cases member : f ∈ s.chain e
    · -- a frame before the first `f` on the way binds the name, so the search ends before `f`
      obtain ⟨near, far, chain, away⟩ := List.eq_append_cons_of_mem member
      have outward := layered.outward_chain e
      rw [chain] at outward
      have bound : ∃ d ∈ near, (s.bindings d).get? x ≠ none := by
        apply Classical.byContradiction
        intro free
        refine hidden ⟨rfl, near, far, outward, fun d member => ?_⟩
        exact Classical.byContradiction fun bound => free ⟨d, member, bound⟩
      have same : near.findSome? (fun d => if f = d ∧ x = x then some v else
          (s.bindings d).get? x) = near.findSome? fun d => (s.bindings d).get? x := by
        refine findSome?_congr fun d member => ?_
        rw [if_neg fun (here : f = d ∧ x = x) => away (here.1 ▸ member)]
      obtain ⟨d, member, bound⟩ := bound
      obtain ⟨w, found⟩ : ∃ w, near.findSome? (fun d => (s.bindings d).get? x) = some w := by
        refine Option.ne_none_iff_exists'.mp fun none => bound ?_
        exact List.findSome?_eq_none_iff.mp none d member
      rw [chain, List.findSome?_append, List.findSome?_append, same, found]
      rfl
    · refine findSome?_congr fun d listed => ?_
      rw [if_neg fun (here : f = d ∧ x = x) => member (here.1 ▸ listed)]
  · simp [named]

/-- New frames are not seen from the frames before them. -/
theorem lookup_push (f : Frame) (inside : e < s.frames.size) (y : Text) :
    (s.push f).2.lookup e y = s.lookup e y := by
  have kept (d : FrameId) (le : d ≤ e) : (s.push f).2.frame? d = s.frame? d := by
    rw [frame?_push, if_neg (Nat.ne_of_lt (Nat.lt_of_le_of_lt le inside))]
  have chain : (s.push f).2.chain e = s.chain e :=
    chainFrom_congr fun d member => by rw [outer?, outer?, kept d (layered.chain_le member)]
  rw [lookup, lookup, chain]
  refine findSome?_congr fun d member => ?_
  rw [bindings, bindings, kept d (layered.chain_le member)]

/-- From a frame, what it binds itself comes first and then what its outer frame sees. -/
theorem lookup_inner (kept : s.KeptOuter t) (found : s.frame? e = some f)
    (found' : t.frame? e = some f) (outer : f.outer = some o) (y : Text) :
    t.lookup e y = (f.bindings.get? y).or (t.lookup o y) := by
  have inside := frame?_lt found
  have below : o < e := layered e o ((outer?_of_frame? found).trans outer)
  have chain {fuel : Nat} (enough : o < fuel) : t.chainFrom fuel o = s.chain o := by
    rw [← layered.chainFrom_eq enough]
    refine chainFrom_congr fun d member => kept.outer?_eq ?_
    rw [layered.chainFrom_eq enough] at member
    exact Nat.lt_of_le_of_lt (layered.chain_le member) (Nat.lt_trans below inside)
  have rest : t.chainFrom e o = t.chain o := (chain below).trans (chain (Nat.lt_succ_self o)).symm
  rw [lookup, Store.chain, findSome?_chainFrom, bindings_of_frame? found',
    outer?_of_frame? found', outer, Option.bind_some, rest]
  rfl

end Lookup
end Store

/-- In a store that new frames, definitions and extensions lead to, a definition is seen from the
frames that look outwards past its frame before they find the name elsewhere, and changes nothing
for other names and other frames. An extension by as many names as values makes a frame that sees
the last value of each name, and for other names what the outer frame sees, now and whenever the
frames around it have changed; the frames before it see what they saw. Another number of values is
refused and nothing happens. -/
theorem lookup_follows_nesting {s : Store} (made : Store.empty.Leads s) :
    (∀ f x v, f < s.frames.size → ∀ e y,
      (y = x → s.Exposes e f x → (s.define f x v).lookup e y = some v) ∧
      (¬(y = x ∧ s.Exposes e f x) → (s.define f x v).lookup e y = s.lookup e y)) ∧
    ∀ params args outer, outer < s.frames.size →
      (params.length = args.length → ∃ t, Eval.extend params args outer s = .ok s.frames.size t ∧
        (∀ e < s.frames.size, ∀ y, t.lookup e y = s.lookup e y) ∧
        ∀ u, t.Leads u → u.frame? s.frames.size = t.frame? s.frames.size → ∀ y,
          (∀ (i : Nat) v, params[i]? = some y → args[i]? = some v →
            (∀ j, i < j → params[j]? ≠ some y) → u.lookup s.frames.size y = some v) ∧
          (y ∉ params → u.lookup s.frames.size y = u.lookup outer y)) ∧
      (params.length ≠ args.length →
        Eval.extend params args outer s = .error (.unmatchedNames params args) s) := by
  have layered : s.Layered := made.layered nofun
  refine ⟨fun f x v inside e y => ⟨?_, Store.lookup_define_hidden layered inside v⟩, ?_⟩
  · rintro rfl exposed
    exact Store.lookup_define_exposed layered inside v exposed
  intro params args outer inside
  refine ⟨fun count => ?_, fun count => by rw [Store.extend_run, if_neg count]⟩
  refine ⟨_, by rw [Store.extend_run, if_pos count], fun e old y => ?_, fun u later still y => ?_⟩
  · exact Store.lookup_push layered _ old y
  have extended : (s.push ⟨.ofArguments params args, some outer⟩).2.Layered := by
    refine Store.layered_push layered _ ?_
    rintro o ⟨⟩
    exact inside
  have found := s.frame?_push ⟨.ofArguments params args, some outer⟩ s.frames.size
  rw [if_pos rfl] at found
  rw [Store.lookup_inner extended later.orderly.1 found (still.trans found) rfl]
  constructor
  · intro i v name value last
    rw [Bindings.get?_ofArguments_of_last name value last]
    rfl
  · intro absent
    rw [Bindings.get?_ofArguments_of_absent absent]
    rfl

/-- An outermost frame with `a`, a frame inside it that was given `b` twice, and one inside that. -/
def shadowedStore : Store :=
  (Eval.newFrame (some 1)).after ((Eval.extend [utf16 "b", utf16 "b"] [.int 2, .int 3] 0).after
    ((Eval.define 0 (utf16 "a") (.int 1)).after ((Eval.newFrame none).after .empty)))

theorem lookup_follows_nesting_shadowed : Store.empty.Leads shadowedStore ∧
    (shadowedStore.define 0 (utf16 "a") (.int 4)).lookup 2 (utf16 "a") = some (.int 4) ∧
    (shadowedStore.define 0 (utf16 "b") (.int 4)).lookup 2 (utf16 "b") =
      shadowedStore.lookup 2 (utf16 "b") ∧
    ∃ t, Eval.extend [utf16 "a", utf16 "a"] [.int 5, .int 6] 2 shadowedStore = .ok 3 t ∧
      t.lookup 3 (utf16 "a") = some (.int 6) ∧
      (t.define 0 (utf16 "c") (.int 7)).lookup 3 (utf16 "c") =
        (t.define 0 (utf16 "c") (.int 7)).lookup 2 (utf16 "c") := by
  have made : Store.empty.Leads shadowedStore :=
    .newFrame (.extend (.define (.newFrame .refl nofun) (show 0 < 1 by decide))
      (show 0 < 1 by decide)) (by rintro _ ⟨⟩; exact show 1 < 2 by decide)
  have outward : shadowedStore.Outward 2 [2, 1, 0] := .next rfl (.next rfl (.last rfl))
  obtain ⟨defined, extended⟩ := lookup_follows_nesting made
  refine ⟨made, ?_, ?_, ?_⟩
  · refine (defined 0 (utf16 "a") (.int 4) (show 0 < 3 by decide) 2 _).1 rfl ?_
    refine ⟨[2, 1], [], outward, ?_⟩
    exact List.forall_mem_cons.mpr ⟨rfl, List.forall_mem_singleton.mpr rfl⟩
  · refine (defined 0 (utf16 "b") (.int 4) (show 0 < 3 by decide) 2 _).2 ?_
    rintro ⟨-, near, far, path, free⟩
    have between : 1 ∈ near := by
      have same := path.unique outward
      rcases near with _ | ⟨d, _ | ⟨c, near⟩⟩ <;> simp_all
    cases free 1 between
  · obtain ⟨t, run, -, sees⟩ := (extended [utf16 "a", utf16 "a"] [.int 5, .int 6] 2
      (show 2 < 3 by decide)).1 rfl
    have size : t.frames.size = 4 := by
      rw [Store.extend_run] at run
      cases run
      rfl
    refine ⟨t, run, (sees t .refl rfl (utf16 "a")).1 1 (.int 6) rfl rfl ?_, ?_⟩
    · rintro (_ | _ | j) later
      · exact absurd later (by decide)
      · exact absurd later (by decide)
      · exact nofun
    · refine (sees _ (.define .refl (show 0 < t.frames.size by omega)) ?_ (utf16 "c")).2 (by decide)
      exact Store.frame?_define t 0 3 (utf16 "c") (.int 7)

end Monkey
