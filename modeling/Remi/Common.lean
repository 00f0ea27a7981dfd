import Mathlib.Algebra.Ring.Nat
import Mathlib.Data.List.Basic

/-!
# `Remi.Common`: return codes, strings and paths

The constants of `remi-common.h`, and the strings every other module builds paths from.

A path string has a list of components. Empty components and `.` components disappear, so
the spellings `a/b`, `a//b` and `./a/b` have the same ones. `place` is the place that a path
string names where no link is on the way: a relative path starts in the working directory,
and a `..` component leaves a directory.
-/

set_option autoImplicit false

namespace Remi

/-- The return type of the API functions, an `int`. -/
structure Ret where
  code : Int
deriving DecidableEq, Repr

namespace Ret

def success : Ret := ⟨0⟩
def errAllocation : Ret := ⟨-1⟩
def errInvalidArg : Ret := ⟨-2⟩
def errMercury : Ret := ⟨-3⟩
def errUnknownClass : Ret := ⟨-4⟩
def errUnknownFile : Ret := ⟨-5⟩
def errUnknownPr : Ret := ⟨-6⟩
def errUnknownMeta : Ret := ⟨-7⟩
def errSize : Ret := ⟨-8⟩
def errMigration : Ret := ⟨-9⟩
def errClassExists : Ret := ⟨-10⟩
def errFileExists : Ret := ⟨-11⟩
def errIo : Ret := ⟨-12⟩
def errUser : Ret := ⟨-13⟩
def errInvalidOpid : Ret := ⟨-14⟩

@[simp] theorem errInvalidArg_ne_success : errInvalidArg ≠ success := by decide
@[simp] theorem errInvalidOpid_ne_success : errInvalidOpid ≠ success := by decide
@[simp] theorem errIo_ne_success : errIo ≠ success := by decide
@[simp] theorem errMigration_ne_success : errMigration ≠ success := by decide
@[simp] theorem errClassExists_ne_success : errClassExists ≠ success := by decide
@[simp] theorem errUnknownClass_ne_success : errUnknownClass ≠ success := by decide

end Ret

/-- `REMI_KEEP_SOURCE` and `REMI_REMOVE_SOURCE`. -/
def remiKeepSource : Int := 0
def remiRemoveSource : Int := 1

/-- `REMI_USE_MMAP` and `REMI_USE_ABTIO`. -/
def remiUseMmap : Int := 2
def remiUseAbtio : Int := 4

/-- A C string or a `std::string`. -/
abbrev Str := List Char

/-- The contents of a file or of a buffer. -/
abbrev Bytes := List UInt8

/-- The components of a path. -/
abbrev Path := List Str

/-! ### Path strings -/

/-- A component that names nothing is dropped. -/
def keepComponent (c : Str) (rest : Path) : Path :=
  if c = [] ∨ c = ['.'] then rest else c :: rest

/-- The components of `s`, where `cur` is the beginning of the first one. -/
def componentsFrom (cur : Str) : Str → Path
  | [] => keepComponent cur []
  | c :: cs => if c = '/' then keepComponent cur (componentsFrom [] cs)
      else componentsFrom (cur ++ [c]) cs

/-- The components of a path string. -/
def components (s : Str) : Path := componentsFrom [] s

/-- The components `p` followed from the directory `done`, where no link is on the way. -/
def enter (done : Path) : Path → Path
  | [] => done
  | c :: rest => enter (if c = ['.', '.'] then done.dropLast else done ++ [c]) rest

/-- The place that a path string names in the working directory `cwd`. -/
def place (cwd : Path) (s : Str) : Path :=
  enter (if s.head? = some '/' then [] else cwd) (components s)

/-- `s.substr(0, s.find_last_of('/'))`: without a slash this is the whole string. -/
def dirname (s : Str) : Str :=
  if '/' ∈ s then (s.reverse.dropWhile (· ≠ '/')).tail.reverse else s

theorem dirname_split {s : Str} (h : '/' ∈ s) :
    ∃ name, s = dirname s ++ '/' :: name ∧ '/' ∉ name := by
  obtain ⟨name, dir, hsplit, hname⟩ := List.eq_append_cons_of_mem (List.mem_reverse.mpr h)
  have hs : s = dir.reverse ++ '/' :: name.reverse := by
    simpa using congrArg List.reverse hsplit
  have hdrop : s.reverse.dropWhile (· ≠ '/') = '/' :: dir := by
    rw [hsplit, List.dropWhile_append_of_pos]
    · simp
    · intro c hc
      have hne : c ≠ '/' := fun he => hname (he ▸ hc)
      simpa using hne
  refine ⟨name.reverse, ?_, fun hmem => hname (List.mem_reverse.mp hmem)⟩
  rw [dirname, if_pos h, hdrop]
  exact hs

theorem keepComponent_append (c : Str) (p q : Path) :
    keepComponent c p ++ q = keepComponent c (p ++ q) := by
  unfold keepComponent
  split <;> rfl

theorem componentsFrom_append_slash (cur a b : Str) :
    componentsFrom cur (a ++ '/' :: b) = componentsFrom cur a ++ componentsFrom [] b := by
  induction a generalizing cur with
  | nil => simp [componentsFrom, keepComponent_append]
  | cons c a ih =>
      simp only [List.cons_append, componentsFrom]
      split
      · rw [ih, keepComponent_append]
      · rw [ih]

/-- What follows a slash has components of its own. -/
theorem components_append_slash (a b : Str) :
    components (a ++ '/' :: b) = components a ++ components b :=
  componentsFrom_append_slash [] a b

/-- A slash at the end adds no component. -/
theorem components_append_singleton (a : Str) : components (a ++ ['/']) = components a := by
  rw [components_append_slash]
  simp [components, componentsFrom, keepComponent]

theorem enter_append (done p q : Path) : enter done (p ++ q) = enter (enter done p) q := by
  induction p generalizing done with
  | nil => rfl
  | cons c p ih => exact ih _

/-- The place of a name below a root that ends with a slash. -/
theorem place_append {cwd : Path} {root : Str} (h : root.getLast? = some '/') (n : Str) :
    place cwd (root ++ n) = enter (place cwd root) (components n) := by
  obtain ⟨r, rfl⟩ := List.getLast?_eq_some_iff.mp h
  have hhead : (r ++ ['/'] ++ n).head? = (r ++ ['/']).head? := by cases r <;> rfl
  unfold place
  rw [hhead, List.append_assoc, List.singleton_append, components_append_slash,
    components_append_singleton, enter_append]

end Remi
