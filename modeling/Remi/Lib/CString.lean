import Mathlib.Data.List.Basic

/-!
# `Remi.Lib.CString`: strings in memory that end with a null character

The memory of a string is a list of cells, and `none` is the null character. Every access
is checked: a read or a write outside of the memory has no result, and neither has a string
without a null character.
-/

set_option autoImplicit false

namespace Remi.Lib

/-- The cells of a string in memory. -/
abbrev Cells (α : Type) := List (Option α)

namespace Cells

variable {α : Type}

/-- A string with its terminator. -/
def ofList (s : List α) : Cells α := s.map some ++ [none]

/-- The character at `i`. -/
def read (m : Cells α) (i : Nat) : Option (Option α) := m[i]?

/-- The memory with `c` at `i`. -/
def write (m : Cells α) (i : Nat) (c : Option α) : Option (Cells α) :=
  if i < m.length then some (m.set i c) else none

/-- The string that begins at the first cell. -/
def cStr : Cells α → Option (List α)
  | [] => none
  | none :: _ => some []
  | some c :: rest => (cStr rest).map (c :: ·)

/-- What is behind the first null character is not in the string. -/
theorem cStr_append (s : List α) (rest : Cells α) : cStr (s.map some ++ none :: rest) = some s := by
  induction s with
  | nil => rfl
  | cons c s ih => rw [List.map_cons, List.cons_append, cStr, ih, Option.map_some]

theorem read_append (s : List α) (c : Option α) (rest : Cells α) :
    read (s.map some ++ c :: rest) s.length = some c := by
  simp [read]

theorem write_append (s : List α) (c d : Option α) (rest : Cells α) :
    write (s.map some ++ c :: rest) s.length d = some (s.map some ++ d :: rest) := by
  have hlength : s.length < (s.map some ++ c :: rest).length := by simp
  rw [write, if_pos hlength, List.set_append_right _ _ (by simp)]
  simp

end Cells

end Remi.Lib
