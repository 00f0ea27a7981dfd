import Remi.Common
import Remi.Lib.Overlay

/-!
# `Remi.Io`: outcomes of system calls and the files behind them

The operating system decides how each call ends. `Io` is that decision, and `Io.count` is
the number of bytes a call that asked for `req` bytes then reports.

`Fs` is the part of a file system that a provider sees: what each path names. Files are
created, truncated and written, directories are created, and nothing is ever removed.
-/

set_option autoImplicit false

namespace Remi

open Remi.Lib

/-- How a system call ends: it fails (`-1` or `MAP_FAILED`), it does all it was asked to,
or it transfers at most `n` bytes. A call that transfers no bytes succeeds unless it
fails. -/
inductive Io where
  | fail
  | full
  | short (n : Nat)
deriving DecidableEq, Repr

/-- The result of a call that asked for `req` bytes, `none` for a failure. -/
def Io.count (io : Io) (req : Nat) : Option Nat :=
  match io with
  | .fail => none
  | .full => some req
  | .short n => some (min n req)

/-- The largest value of an `off_t`, plus one. -/
def offsetBound : Nat := 2 ^ 63

/-- The modulus of `size_t` arithmetic. -/
def sizeModulus : Nat := 2 ^ 64

/-- What a path of a provider's file system names. -/
inductive Node where
  | file (data : Bytes)
  | dir
deriving DecidableEq

def Node.isFile : Node → Bool
  | .file _ => true
  | .dir => false

/-- The node with its contents changed by `f`. -/
def Node.modify (f : Bytes → Bytes) : Node → Node
  | .file b => .file (f b)
  | .dir => .dir

theorem Node.modify_modify (f g : Bytes → Bytes) (n : Node) :
    (n.modify f).modify g = n.modify fun b => g (f b) := by
  cases n <;> rfl

/-- A provider's file system, with the working directory of its process. -/
structure Fs where
  cwd : Path
  node : Path → Option Node

namespace Fs

/-- A file system with nothing in it, seen from its root. -/
def empty : Fs := ⟨[], fun _ => none⟩

/-- The place a path string names. -/
def place (fs : Fs) (path : Str) : Path := Remi.place fs.cwd path

/-- The file system with `n` at `p`. -/
def put (fs : Fs) (p : Path) (n : Node) : Fs :=
  { fs with node := Function.update fs.node p (some n) }

/-- The contents of the file at `p`, changed by `f`. -/
def modifyFile (fs : Fs) (p : Path) (f : Bytes → Bytes) : Fs :=
  { fs with node := Function.update fs.node p ((fs.node p).map (Node.modify f)) }

/-- The contents of the files at the places of `l`, changed one after the other by `f`. -/
def modifyAll (f : Bytes → Bytes → Bytes) (l : List (Path × Bytes)) (fs : Fs) : Fs :=
  l.foldl (fun fs x => fs.modifyFile x.1 (f x.2)) fs

/-- There is a regular file at `p`. -/
def HasFile (fs : Fs) (p : Path) : Prop := ∃ b, fs.node p = some (.file b)

instance (fs : Fs) (p : Path) : Decidable (fs.HasFile p) :=
  decidable_of_iff ((fs.node p).any Node.isFile = true) (by
    unfold HasFile
    cases h : fs.node p with
    | none => simp
    | some n => cases n <;> simp [Node.isFile])

@[simp] theorem put_place (fs : Fs) (p : Path) (n : Node) : (fs.put p n).place = fs.place := rfl

@[simp] theorem modifyFile_place (fs : Fs) (p : Path) (f : Bytes → Bytes) :
    (fs.modifyFile p f).place = fs.place := rfl

@[simp] theorem put_node_self (fs : Fs) (p : Path) (n : Node) : (fs.put p n).node p = some n :=
  Function.update_self _ _ _

@[simp] theorem put_node_ne {p q : Path} (h : q ≠ p) (fs : Fs) (n : Node) :
    (fs.put p n).node q = fs.node q :=
  Function.update_of_ne h _ _

@[simp] theorem modifyFile_node_self (fs : Fs) (p : Path) (f : Bytes → Bytes) :
    (fs.modifyFile p f).node p = (fs.node p).map (Node.modify f) :=
  Function.update_self _ _ _

@[simp] theorem modifyFile_node_ne {p q : Path} (h : q ≠ p) (fs : Fs) (f : Bytes → Bytes) :
    (fs.modifyFile p f).node q = fs.node q :=
  Function.update_of_ne h _ _

@[simp] theorem modifyAll_cwd (f : Bytes → Bytes → Bytes) (l : List (Path × Bytes)) (fs : Fs) :
    (fs.modifyAll f l).cwd = fs.cwd := by
  induction l generalizing fs with
  | nil => rfl
  | cons x l ih => exact ih _

theorem modifyAll_append (f : Bytes → Bytes → Bytes) (l m : List (Path × Bytes)) (fs : Fs) :
    fs.modifyAll f (l ++ m) = (fs.modifyAll f l).modifyAll f m :=
  List.foldl_append

theorem ext {fs fs' : Fs} (hcwd : fs.cwd = fs'.cwd) (hnode : ∀ p, fs.node p = fs'.node p) :
    fs = fs' := by
  obtain ⟨cwd, node⟩ := fs
  obtain rfl : cwd = fs'.cwd := hcwd
  obtain rfl : node = fs'.node := funext hnode
  rfl

/-- What is at `p` is changed by the data for `p` only. -/
theorem modifyAll_node (f : Bytes → Bytes → Bytes) (l : List (Path × Bytes)) (fs : Fs)
    (p : Path) :
    (fs.modifyAll f l).node p = (fs.node p).map
      (Node.modify fun b => (l.filter (·.1 = p)).foldl (fun b x => f x.2 b) b) := by
  induction l generalizing fs with
  | nil => cases h : fs.node p with
    | none => simp [modifyAll, h]
    | some n => cases n <;> simp [modifyAll, h, Node.modify]
  | cons x l ih =>
      rw [modifyAll, List.foldl_cons]
      refine (ih _).trans ?_
      by_cases hp : x.1 = p
      · subst hp
        cases h : fs.node x.1 <;> simp [h, Node.modify_modify]
      · simp [hp, Ne.symm hp]

/-- Changing contents creates and removes no file. -/
theorem hasFile_modifyFile (fs : Fs) (p q : Path) (f : Bytes → Bytes) :
    (fs.modifyFile p f).HasFile q ↔ fs.HasFile q := by
  by_cases hq : q = p
  · subst hq
    simp only [HasFile, modifyFile_node_self]
    cases h : fs.node q with
    | none => simp
    | some n => cases n <;> simp [Node.modify]
  · simp only [HasFile, modifyFile_node_ne hq]

/-- A directory that is made is no file, and takes the place of none. -/
theorem hasFile_mkdir {fs : Fs} {p : Path} (h : fs.node p = none) (q : Path) :
    (fs.put p .dir).HasFile q ↔ fs.HasFile q := by
  by_cases hq : q = p
  · subst hq
    simp [HasFile, h]
  · simp only [HasFile, put_node_ne hq]

/-- The files after one is created. -/
theorem hasFile_create (fs : Fs) (p q : Path) (b : Bytes) :
    (fs.put p (.file b)).HasFile q ↔ q = p ∨ fs.HasFile q := by
  by_cases hq : q = p
  · subst hq
    simp [HasFile]
  · simp only [HasFile, put_node_ne hq, hq, false_or]

end Fs

end Remi
