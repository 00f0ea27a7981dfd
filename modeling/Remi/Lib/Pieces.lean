import Mathlib.Data.List.Basic

/-!
# `Remi.Lib.Pieces`: a list cut into pieces of one length

`Pieces n b pieces` says that `pieces` are `b`, cut after every `n` elements. The last piece may
be shorter, and none is empty. `piece_eq` says where a piece of any list of lists lies in the
whole.
-/

set_option autoImplicit false

namespace Remi.Lib

variable {α : Type} {n : Nat} {b : List α} {pieces : List (List α)}

/-- `b` cut after every `n` elements. -/
inductive Pieces (n : Nat) : List α → List (List α) → Prop
  | nil : Pieces n [] []
  | last {b : List α} (hne : b ≠ []) (hle : b.length ≤ n) : Pieces n b [b]
  | cons {b : List α} {rest : List (List α)} (hlt : n < b.length) (h : Pieces n (b.drop n) rest) :
      Pieces n b (b.take n :: rest)

theorem Pieces.eq_nil (h : Pieces n [] pieces) : pieces = [] := by
  cases h with
  | nil => rfl
  | last hne _ => exact absurd rfl hne
  | cons hlt _ => exact absurd hlt (Nat.not_lt_zero _)

/-- The step of a loop that takes `n` elements, or all when fewer are left. -/
theorem Pieces.step {size : Nat} (hne : b ≠ []) (hsize : size = min b.length n)
    (h : Pieces n (b.drop size) pieces) : Pieces n b (b.take size :: pieces) := by
  by_cases hlast : b.length ≤ n
  · have hall : size = b.length := by omega
    subst hall
    rw [List.drop_length] at h
    rw [h.eq_nil, List.take_length]
    exact .last hne hlast
  · obtain rfl : size = n := by omega
    exact .cons (Nat.not_le.mp hlast) h

theorem Pieces.flatten (h : Pieces n b pieces) : pieces.flatten = b := by
  induction h with
  | nil => rfl
  | last => simp
  | cons _ _ ih => rw [List.flatten_cons, ih, List.take_append_drop]

theorem Pieces.length_le (h : Pieces n b pieces) : ∀ d ∈ pieces, d.length ≤ n := by
  induction h with
  | nil => exact nofun
  | last _ hle => simpa using hle
  | cons hlt _ ih =>
      intro d hd
      rcases List.mem_cons.mp hd with rfl | hd
      · rw [List.length_take]
        exact Nat.min_le_left _ _
      · exact ih d hd

theorem Pieces.ne_nil (hn : 0 < n) (h : Pieces n b pieces) : ∀ d ∈ pieces, d ≠ [] := by
  induction h with
  | nil => exact nofun
  | last hne _ => simpa using hne
  | @cons b _ hlt _ ih =>
      intro d hd
      rcases List.mem_cons.mp hd with rfl | hd
      · intro hnil
        have hlen := congrArg List.length hnil
        rw [List.length_take, List.length_nil] at hlen
        omega
      · exact ih d hd

/-- Only the last piece may be shorter than `n`. -/
theorem Pieces.length_eq (h : Pieces n b pieces) {k : Nat} {d : List α} (hd : pieces[k]? = some d)
    (hk : k + 1 < pieces.length) : d.length = n := by
  induction h generalizing k with
  | nil => cases hd
  | last => simp at hk
  | cons hlt _ ih =>
      cases k with
      | zero =>
          obtain rfl := Option.some.inj hd
          rw [List.length_take]
          omega
      | succ k => exact ih hd (by simpa using hk)

/-- A piece lies behind the pieces before it. -/
theorem piece_eq {k : Nat} {d : List α} (hd : pieces[k]? = some d) :
    d = (pieces.flatten.drop (pieces.take k).flatten.length).take d.length := by
  obtain ⟨hk, rfl⟩ := List.getElem?_eq_some_iff.mp hd
  have hsplit : pieces.flatten =
      (pieces.take k).flatten ++ (pieces[k] ++ (pieces.drop (k + 1)).flatten) := by
    rw [← List.flatten_cons, ← List.flatten_append, ← List.drop_eq_getElem_cons hk,
      List.take_append_drop]
  rw [hsplit, List.drop_left, List.take_left]

end Remi.Lib
