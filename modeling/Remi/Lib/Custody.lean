import Mathlib.Logic.Function.Basic
import Mathlib.Data.List.Perm.Basic
import Mathlib.Data.List.Perm.Lattice

/-!
# `Remi.Lib.Custody`: resources that a table holds

A table has a value under each of finitely many keys, and each value owns some resources.
`held` lists them when the table is gone through in some order. `Balanced` is the invariant of
a table that is filled and emptied: what has been released, together with what is still held,
is what has been taken, each as often as it has been taken.
-/

set_option autoImplicit false

namespace Remi.Lib

section Custody
variable {K V R : Type} (owns : V → List R)

/-- The resources of an entry. -/
def entryOwns (entry : Option V) : List R := (entry.map owns).getD []

/-- The resources of a table whose entries are visited in the order `keys`. -/
def held (keys : List K) (table : K → Option V) : List R :=
  keys.flatMap fun k => entryOwns owns (table k)

/-- The keys `keys` are visited once each, and no entry is left out. -/
structure Visits (keys : List K) (table : K → Option V) : Prop where
  nodup : keys.Nodup
  all : ∀ k, table k ≠ none → k ∈ keys

/-- What has been taken has been released or is held, in whatever order the table is visited. -/
def Balanced (released : List R) (table : K → Option V) (taken : List R) : Prop :=
  ∀ keys, Visits keys table → (released ++ held owns keys table).Perm taken

theorem balanced_empty : Balanced owns [] (fun _ : K => none) [] := by
  intro keys _
  have hnone : held owns keys (fun _ => none) = [] := by
    simp [held, entryOwns]
  rw [hnone]
  exact .refl _

variable {owns} {released taken : List R} {table : K → Option V} {k : K}

theorem held_congr {keys : List K} {other : K → Option V}
    (h : ∀ x ∈ keys, entryOwns owns (table x) = entryOwns owns (other x)) :
    held owns keys table = held owns keys other :=
  List.flatMap_congr h

variable [DecidableEq K]

theorem held_update_of_not_mem (owns : V → List R) (table : K → Option V) {keys : List K}
    (entry : Option V) (h : k ∉ keys) :
    held owns keys (Function.update table k entry) = held owns keys table := by
  refine held_congr fun x hx => ?_
  have hne : x ≠ k := by
    rintro rfl
    exact h hx
  rw [Function.update_of_ne hne]

/-- The entry under one key, and the others. -/
theorem held_update_perm (owns : V → List R) (table : K → Option V) {keys : List K}
    (hnodup : keys.Nodup) (hk : k ∈ keys) (entry : Option V) :
    (held owns keys (Function.update table k entry)).Perm
      (entryOwns owns entry ++ held owns (keys.erase k) table) := by
  have hsplit := (List.perm_cons_erase hk).flatMap_right
    (fun x => entryOwns owns (Function.update table k entry x))
  rw [List.flatMap_cons, Function.update_self] at hsplit
  have hrest : held owns (keys.erase k) (Function.update table k entry) =
      held owns (keys.erase k) table :=
    held_update_of_not_mem owns table entry hnodup.not_mem_erase
  rw [← hrest]
  exact hsplit

/-- A new value is taken into a free place. -/
theorem Balanced.insert (h : Balanced owns released table taken) (hk : table k = none) (v : V) :
    Balanced owns released (Function.update table k (some v)) (taken ++ owns v) := by
  intro keys hkeys
  have hmem : k ∈ keys := hkeys.all k (by simp)
  have hold : Visits keys table := by
    refine ⟨hkeys.nodup, fun x hx => ?_⟩
    by_cases hxk : x = k
    · exact hxk ▸ hmem
    · exact hkeys.all x (by rwa [Function.update_of_ne hxk])
  have hbefore := held_update_perm owns table hkeys.nodup hmem none
  rw [← hk, Function.update_eq_self, hk] at hbefore
  have hafter := held_update_perm owns table hkeys.nodup hmem (some v)
  have hrest : (released ++ held owns (keys.erase k) table).Perm taken :=
    (hbefore.symm.append_left released).trans (h keys hold)
  -- The new resources come last.
  refine (hafter.append_left released).trans ?_
  refine (List.perm_append_comm.append_left released).trans ?_
  rw [← List.append_assoc]
  exact hrest.append_right _

/-- The value of a place is released. -/
theorem Balanced.remove {v : V} (h : Balanced owns released table taken) (hk : table k = some v) :
    Balanced owns (released ++ owns v) (Function.update table k none) taken := by
  intro keys hkeys
  have herase : Visits (k :: keys.erase k) table := by
    refine ⟨List.nodup_cons.mpr ⟨hkeys.nodup.not_mem_erase, hkeys.nodup.erase k⟩, fun x hx => ?_⟩
    by_cases hxk : x = k
    · exact hxk ▸ List.mem_cons_self
    · refine List.mem_cons_of_mem k ((List.mem_erase_of_ne hxk).mpr (hkeys.all x ?_))
      rwa [Function.update_of_ne hxk]
  have hbefore := h _ herase
  have hhead : held owns (k :: keys.erase k) table = owns v ++ held owns (keys.erase k) table := by
    rw [held, List.flatMap_cons, hk]
    rfl
  have hafter : (held owns keys (Function.update table k none)).Perm
      (held owns (keys.erase k) table) := by
    by_cases hmem : k ∈ keys
    · exact held_update_perm owns table hkeys.nodup hmem none
    · rw [held_update_of_not_mem owns table none hmem, List.erase_of_not_mem hmem]
  rw [hhead, ← List.append_assoc] at hbefore
  exact (hafter.append_left _).trans hbefore

end Custody

end Remi.Lib
