import Mathlib.Data.List.Basic

/-!
# `Remi.Lib.Overlay`: writing into a sequence at an offset

`overlay z b off d` is `b` after `d` is written at the offset `off`. A gap between the end
of `b` and `off` is filled with `z`. `resize z n b` is `b` cut, or filled with `z`, to the
length `n`. They are the effects of a positioned write and of a truncation on the
contents of a file, and `resize` is also the effect of a resize on a buffer.
-/

set_option autoImplicit false

namespace Remi.Lib

variable {α : Type}

/-- `b` after `d` is written at `off`. -/
def overlay (z : α) (b : List α) (off : Nat) (d : List α) : List α :=
  if d = [] then b
  else b.take off ++ List.replicate (off - b.length) z ++ d ++ b.drop (off + d.length)

/-- `b` cut or filled to the length `n`. -/
def resize (z : α) (n : Nat) (b : List α) : List α :=
  b.take n ++ List.replicate (n - b.length) z

@[simp] theorem overlay_nil (z : α) (b : List α) (off : Nat) : overlay z b off [] = b := by
  simp [overlay]

@[simp] theorem length_resize (z : α) (n : Nat) (b : List α) : (resize z n b).length = n := by
  simp only [resize, List.length_append, List.length_take, List.length_replicate]
  omega

theorem resize_self (z : α) (b : List α) : resize z b.length b = b := by
  simp [resize]

/-- A write inside `b` needs no filling. -/
theorem overlay_of_le (z : α) {b : List α} {off : Nat} (d : List α) (h : off ≤ b.length) :
    overlay z b off d = b.take off ++ d ++ b.drop (off + d.length) := by
  by_cases hd : d = []
  · subst hd
    simp [List.take_append_drop]
  · simp [overlay, hd, Nat.sub_eq_zero_of_le h]

theorem length_overlay_of_le (z : α) {b : List α} {off : Nat} (d : List α)
    (h : off ≤ b.length) : (overlay z b off d).length = max b.length (off + d.length) := by
  rw [overlay_of_le z d h]
  simp only [List.length_append, List.length_take, List.length_drop]
  omega

/-- A write of the whole contents. -/
theorem overlay_zero_of_length (z : α) {b d : List α} (h : b.length = d.length) :
    overlay z b 0 d = d := by
  rw [overlay_of_le z d (Nat.zero_le _)]
  simp [h, List.drop_eq_nil_of_le]

/-- Two adjacent writes are one. -/
theorem overlay_append (z : α) (b d e : List α) (off : Nat) :
    overlay z (overlay z b off d) (off + d.length) e = overlay z b off (d ++ e) := by
  by_cases hd : d = []
  · subst hd
    simp
  by_cases he : e = []
  · subst he
    simp
  -- The first write ends where the second one begins.
  have hhead : (b.take off ++ List.replicate (off - b.length) z ++ d).length =
      off + d.length := by
    simp only [List.length_append, List.length_take, List.length_replicate]
    omega
  have hfirst : overlay z b off d = b.take off ++ List.replicate (off - b.length) z ++ d ++
      b.drop (off + d.length) := by simp [overlay, hd]
  have hle : off + d.length ≤ (overlay z b off d).length := by
    rw [hfirst, List.length_append, hhead]
    exact Nat.le_add_right _ _
  have hdrop : (overlay z b off d).drop (off + d.length + e.length) =
      b.drop (off + d.length + e.length) := by
    rw [hfirst, ← hhead, List.drop_length_add_append, hhead, List.drop_drop]
  have htake : (overlay z b off d).take (off + d.length) =
      b.take off ++ List.replicate (off - b.length) z ++ d := by
    rw [hfirst, ← hhead, List.take_left]
  rw [overlay_of_le z e hle, htake, hdrop]
  simp [overlay, hd, he, Nat.add_assoc]

end Remi.Lib
