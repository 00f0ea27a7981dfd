import Mathlib.Order.Lattice
import Mathlib.Data.List.Basic

/-!
# `Remi.Lib.SortedMap`: finite maps kept as lists with increasing keys

The model of an ordered map: iteration is the list of entries, in increasing order of
their keys, and each key occurs once.
-/

set_option autoImplicit false

namespace Remi.Lib

/-- A finite map, as the list of its entries in strictly increasing order of the keys. -/
structure SortedMap (α β : Type) [LinearOrder α] where
  entries : List (α × β)
  sorted : entries.Pairwise fun x y => x.1 < y.1
deriving DecidableEq

namespace SortedMap

variable {α β : Type} [LinearOrder α]

/-- The entry `(a, b)` at its place, in the place of an older entry for `a`. -/
def insertList (a : α) (b : β) : List (α × β) → List (α × β)
  | [] => [(a, b)]
  | e :: l =>
    if a < e.1 then (a, b) :: e :: l
    else if a = e.1 then (a, b) :: l
    else e :: insertList a b l

theorem mem_insertList {a : α} {b : β} {x : α × β} {l : List (α × β)}
    (hx : x ∈ insertList a b l) : x.1 = a ∨ x ∈ l := by
  induction l with
  | nil => simp_all [insertList]
  | cons e l ih =>
      simp only [insertList] at hx
      split at hx
      · rcases List.mem_cons.mp hx with rfl | hx
        · exact Or.inl rfl
        · exact Or.inr hx
      · split at hx
        · rcases List.mem_cons.mp hx with rfl | hx
          · exact Or.inl rfl
          · exact Or.inr (List.mem_cons_of_mem _ hx)
        · rcases List.mem_cons.mp hx with rfl | hx
          · exact Or.inr List.mem_cons_self
          · exact (ih hx).imp_right (List.mem_cons_of_mem _)

theorem pairwise_insertList (a : α) (b : β) {l : List (α × β)}
    (h : l.Pairwise fun x y => x.1 < y.1) :
    (insertList a b l).Pairwise fun x y => x.1 < y.1 := by
  induction l with
  | nil => simp [insertList]
  | cons e l ih =>
      obtain ⟨he, hl⟩ := List.pairwise_cons.mp h
      simp only [insertList]
      split
      · rename_i hlt
        refine List.pairwise_cons.mpr ⟨fun x hx => ?_, h⟩
        rcases List.mem_cons.mp hx with rfl | hx
        · exact hlt
        · exact lt_trans hlt (he x hx)
      · split
        · rename_i heq
          exact List.pairwise_cons.mpr ⟨fun x hx => heq ▸ he x hx, hl⟩
        · rename_i hlt hne
          refine List.pairwise_cons.mpr ⟨fun x hx => ?_, ih hl⟩
          rcases mem_insertList hx with hxa | hx
          · exact hxa ▸ lt_of_le_of_ne (not_lt.mp hlt) (Ne.symm hne)
          · exact he x hx

def empty : SortedMap α β := ⟨[], .nil⟩

def insert (m : SortedMap α β) (a : α) (b : β) : SortedMap α β :=
  ⟨insertList a b m.entries, pairwise_insertList a b m.sorted⟩

def erase (m : SortedMap α β) (a : α) : SortedMap α β :=
  ⟨m.entries.filter (·.1 ≠ a), m.sorted.filter _⟩

def find? (m : SortedMap α β) (a : α) : Option β :=
  (m.entries.find? (·.1 = a)).map (·.2)

end SortedMap

end Remi.Lib
