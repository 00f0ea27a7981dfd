import Mathlib.Order.Lattice
import Mathlib.Data.List.Basic

/-!
# `Remi.Lib.SortedSet`: finite sets kept as increasing lists

`SortedSet α` is a list in strictly increasing order, with the order as a field. It is the
model of an ordered container: iteration is the list itself, in increasing order, and each
element occurs once. `SortedSet.ext_mem` says that two sets with the same elements are
equal, so no proof about a set depends on the order of its insertions.
-/

set_option autoImplicit false

namespace Remi.Lib

/-- A finite set, as the strictly increasing list of its elements. -/
structure SortedSet (α : Type) [LinearOrder α] where
  toList : List α
  sorted : toList.Pairwise (· < ·)
deriving DecidableEq

namespace SortedSet

variable {α : Type} [LinearOrder α]

/-- `a` at its place in an increasing list, unless the list has it already. -/
def insertList (a : α) : List α → List α
  | [] => [a]
  | b :: l => if a < b then a :: b :: l else if a = b then b :: l else b :: insertList a l

theorem mem_insertList (a x : α) (l : List α) : x ∈ insertList a l ↔ x = a ∨ x ∈ l := by
  induction l with
  | nil => simp [insertList]
  | cons b l ih =>
      simp only [insertList]
      split
      · simp
      · split
        · rename_i hab
          subst hab
          simp
        · simp only [List.mem_cons, ih]
          constructor <;> rintro (h | h | h) <;> simp [h]

theorem pairwise_insertList (a : α) {l : List α} (h : l.Pairwise (· < ·)) :
    (insertList a l).Pairwise (· < ·) := by
  induction l with
  | nil => simp [insertList]
  | cons b l ih =>
      obtain ⟨hb, hl⟩ := List.pairwise_cons.mp h
      simp only [insertList]
      split
      · rename_i hab
        refine List.pairwise_cons.mpr ⟨fun x hx => ?_, h⟩
        rcases List.mem_cons.mp hx with rfl | hx
        · exact hab
        · exact lt_trans hab (hb x hx)
      · split
        · exact h
        · rename_i hlt hne
          have hba : b < a := lt_of_le_of_ne (not_lt.mp hlt) (Ne.symm hne)
          refine List.pairwise_cons.mpr ⟨fun x hx => ?_, ih hl⟩
          rcases (mem_insertList a x l).mp hx with rfl | hx
          · exact hba
          · exact hb x hx

def empty : SortedSet α := ⟨[], .nil⟩

def insert (s : SortedSet α) (a : α) : SortedSet α :=
  ⟨insertList a s.toList, pairwise_insertList a s.sorted⟩

def erase (s : SortedSet α) (a : α) : SortedSet α :=
  ⟨s.toList.filter (· ≠ a), s.sorted.filter _⟩

/-- The set of the elements of a list. -/
def ofList (l : List α) : SortedSet α := l.foldl insert empty

instance : Membership α (SortedSet α) := ⟨fun s a => a ∈ s.toList⟩

instance (a : α) (s : SortedSet α) : Decidable (a ∈ s) :=
  inferInstanceAs (Decidable (a ∈ s.toList))

@[simp] theorem mem_toList (a : α) (s : SortedSet α) : a ∈ s.toList ↔ a ∈ s := Iff.rfl

@[simp] theorem notMem_empty (a : α) : a ∉ (empty : SortedSet α) := List.not_mem_nil

@[simp] theorem toList_empty : (empty : SortedSet α).toList = [] := rfl

@[simp] theorem mem_insert (s : SortedSet α) (a x : α) : x ∈ s.insert a ↔ x = a ∨ x ∈ s :=
  mem_insertList a x s.toList

@[simp] theorem mem_erase (s : SortedSet α) (a x : α) : x ∈ s.erase a ↔ x ∈ s ∧ x ≠ a := by
  show x ∈ s.toList.filter (· ≠ a) ↔ _
  simp

theorem mem_foldl_insert (l : List α) (s : SortedSet α) (x : α) :
    x ∈ l.foldl insert s ↔ x ∈ s ∨ x ∈ l := by
  induction l generalizing s with
  | nil => simp
  | cons a l ih =>
      rw [List.foldl_cons, ih, mem_insert, List.mem_cons]
      constructor
      · rintro ((h | h) | h) <;> simp [h]
      · rintro (h | h | h) <;> simp [h]

@[simp] theorem mem_ofList (l : List α) (x : α) : x ∈ ofList l ↔ x ∈ l := by
  rw [ofList, mem_foldl_insert]
  simp

theorem nodup (s : SortedSet α) : s.toList.Nodup :=
  s.sorted.imp fun h => ne_of_lt h

/-- Two sets with the same elements are equal: an increasing list is determined by its
elements. -/
theorem ext_mem {s t : SortedSet α} (h : ∀ a, a ∈ s ↔ a ∈ t) : s = t := by
  have key : ∀ l m : List α, l.Pairwise (· < ·) → m.Pairwise (· < ·) →
      (∀ a, a ∈ l ↔ a ∈ m) → l = m := by
    intro l
    induction l with
    | nil =>
        intro m _ _ hm
        exact (List.eq_nil_iff_forall_not_mem.mpr fun a ha => by simpa using (hm a).mpr ha).symm
    | cons a l ih =>
        intro m hl hm hmem
        cases m with
        | nil => exact absurd ((hmem a).mp List.mem_cons_self) List.not_mem_nil
        | cons b m =>
            obtain ⟨hal, hl'⟩ := List.pairwise_cons.mp hl
            obtain ⟨hbm, hm'⟩ := List.pairwise_cons.mp hm
            -- The two heads are the least elements of the same set.
            have hab : a = b := by
              rcases List.mem_cons.mp ((hmem a).mp List.mem_cons_self) with h1 | h1
              · exact h1
              · rcases List.mem_cons.mp ((hmem b).mpr List.mem_cons_self) with h2 | h2
                · exact h2.symm
                · exact absurd (hbm a h1) (lt_asymm (hal b h2))
            subst hab
            -- What is in one of the tails is greater than the head, so it is in the other one.
            have htail : ∀ x, x ∈ l ↔ x ∈ m := by
              intro x
              constructor
              · intro hx
                rcases List.mem_cons.mp ((hmem x).mp (List.mem_cons_of_mem _ hx)) with h1 | h1
                · exact absurd (hal x hx) (h1 ▸ lt_irrefl a)
                · exact h1
              · intro hx
                rcases List.mem_cons.mp ((hmem x).mpr (List.mem_cons_of_mem _ hx)) with h1 | h1
                · exact absurd (hbm x hx) (h1 ▸ lt_irrefl a)
                · exact h1
            rw [ih m hl' hm' htail]
  obtain ⟨l, hl⟩ := s
  obtain ⟨m, hm⟩ := t
  obtain rfl : l = m := key l m hl hm h
  rfl

end SortedSet

end Remi.Lib
