import Mathlib.Data.Set.Card
import Mathlib.Logic.Function.Basic

/-!
# `Remi.Lib.FanIn`: how many keys refer to an object

A partial map says which object each key refers to. `fanIn f v` is the number of keys that refer
to `v`: what a reference counter in `v` should be. The lemmas say how the number changes when one
key gets a reference or gives it up. They need that only finitely many keys refer to anything.
-/

set_option autoImplicit false

namespace Remi.Lib

section FanIn
variable {K V : Type}

/-- Finitely many keys refer to something. -/
def FinSupp (f : K → Option V) : Prop := {k | f k ≠ none}.Finite

/-- The keys that refer to `v`. -/
def users (f : K → Option V) (v : V) : Set K := {k | f k = some v}

/-- The number of keys that refer to `v`. -/
noncomputable def fanIn (f : K → Option V) (v : V) : Nat := (users f v).ncard

theorem finSupp_none : FinSupp (fun _ : K => (none : Option V)) := by
  simp [FinSupp]

theorem fanIn_none (v : V) : fanIn (fun _ : K => (none : Option V)) v = 0 := by
  simp [fanIn, users]

variable {f : K → Option V} {k : K} {v w : V}

theorem FinSupp.users_finite (h : FinSupp f) (v : V) : (users f v).Finite := by
  refine Set.Finite.subset h fun k hk => ?_
  show f k ≠ none
  rw [show f k = some v from hk]
  exact Option.some_ne_none v

theorem FinSupp.fanIn_eq_zero (h : FinSupp f) : fanIn f v = 0 ↔ ∀ k, f k ≠ some v := by
  rw [fanIn, Set.ncard_eq_zero (h.users_finite v), Set.eq_empty_iff_forall_notMem]
  rfl

theorem FinSupp.fanIn_pos (h : FinSupp f) : 0 < fanIn f v ↔ ∃ k, f k = some v := by
  rw [fanIn, Set.ncard_pos (h.users_finite v)]
  rfl

variable [DecidableEq K]

theorem FinSupp.update (h : FinSupp f) (k : K) (r : Option V) :
    FinSupp (Function.update f k r) := by
  refine Set.Finite.subset (Set.Finite.insert k h) fun x hx => ?_
  by_cases hxk : x = k
  · exact Or.inl hxk
  · refine Or.inr ?_
    have hx' : Function.update f k r x ≠ none := hx
    rwa [Function.update_of_ne hxk] at hx'

/-- The keys that refer to an object, when one key has given its reference up. -/
theorem users_update_none (f : K → Option V) (k : K) (v : V) :
    users (Function.update f k none) v = users f v \ {k} := by
  ext x
  by_cases hxk : x = k
  · subst hxk
    simp [users]
  · simp [users, hxk]

/-- The keys that refer to an object, when one key has got a reference to it. -/
theorem users_update_some (f : K → Option V) (k : K) (v : V) :
    users (Function.update f k (some v)) v = insert k (users f v) := by
  ext x
  by_cases hxk : x = k
  · subst hxk
    simp [users]
  · simp [users, hxk]

theorem users_update_of_ne {r : Option V} (hk : f k ≠ some w) (hr : r ≠ some w) :
    users (Function.update f k r) w = users f w := by
  ext x
  by_cases hxk : x = k
  · subst hxk
    simp [users, hk, hr]
  · simp [users, Function.update_of_ne hxk]

/-- A key without a reference gets one. -/
theorem FinSupp.fanIn_take (h : FinSupp f) (hk : f k = none) (v : V) :
    fanIn (Function.update f k (some v)) v = fanIn f v + 1 := by
  rw [fanIn, users_update_some, Set.ncard_insert_of_notMem _ (h.users_finite v)]
  · rfl
  · intro hmem
    rw [show f k = some v from hmem] at hk
    cases hk

/-- A key gives its reference up. -/
theorem FinSupp.fanIn_drop (h : FinSupp f) (hk : f k = some v) :
    fanIn (Function.update f k none) v + 1 = fanIn f v := by
  rw [fanIn, users_update_none]
  exact Set.ncard_sdiff_singleton_add_one hk (h.users_finite v)

/-- The number does not change for an object that the key refers to neither before nor after. -/
theorem fanIn_update_of_ne {r : Option V} (hk : f k ≠ some w) (hr : r ≠ some w) :
    fanIn (Function.update f k r) w = fanIn f w := by
  rw [fanIn, users_update_of_ne hk hr]
  rfl

end FanIn

end Remi.Lib
