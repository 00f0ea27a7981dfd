import Remi.Io
import Mathlib.Data.List.Nodup

/-!
# `Remi.SourceTree`: the file system a fileset is read from

A `SourceTree` is a finite file tree with the calls that `fs-util.hpp` and the client make on
it: `opendir`, `open` with `fstat`, and `remove`. An entry is a regular file, a directory, a
symbolic link or something else, and a directory may report its entries with the type
`DT_UNKNOWN`. Links are followed in all but the last component of a path, and by `open` and
`opendir` also there.

That the names are proper, that the paths are distinct and that the parent of every entry is
a directory are fields of the structure. `erase` keeps them, because `remove` never takes a
directory with entries.
-/

set_option autoImplicit false

namespace Remi

/-- The contents of a source file. A file is shorter than the largest `off_t`. -/
abbrev FileData := {b : Bytes // b.length < offsetBound}

/-- What an entry of a tree is. A directory has a size of its own, and a link names a path
from the root of the tree. -/
inductive SourceNode where
  | file (data : FileData)
  | dir (size : Nat)
  | link (target : Path)
  | special
deriving DecidableEq

def SourceNode.isDir : SourceNode → Bool
  | .dir _ => true
  | _ => false

/-- `d_type` of a directory entry. -/
inductive DType where
  | reg
  | dir
  | lnk
  | other
  | unknown
deriving DecidableEq, Repr

/-- The type a directory reports when it knows the types of its entries. -/
def SourceNode.dType : SourceNode → DType
  | .file _ => .reg
  | .dir _ => .dir
  | .link _ => .lnk
  | .special => .other

/-- An entry of a tree, with its `st_mode`. Without `typeKnown`, `readdir` reports it as
`DT_UNKNOWN`. -/
structure TreeEntry where
  path : Path
  node : SourceNode
  mode : Nat := 0
  typeKnown : Bool := true
deriving DecidableEq

/-- A name that a directory entry can have. -/
def ProperName (c : Str) : Prop := c ≠ [] ∧ c ≠ ['.'] ∧ c ≠ ['.', '.'] ∧ '/' ∉ c

instance (c : Str) : Decidable (ProperName c) := by unfold ProperName; infer_instance

/-- What `readdir` returns. -/
structure Dirent where
  name : Str
  type : DType
deriving DecidableEq

/-- A finite file tree. `readdir` returns the entries of a directory in the order of the
list. -/
structure SourceTree where
  entries : List TreeEntry
  /-- The working directory of the process. -/
  cwd : Path := []
  names : ∀ e ∈ entries, ∀ c ∈ e.path, ProperName c
  nodup : (entries.map (·.path)).Nodup
  parents : ∀ e ∈ entries, e.path ≠ [] ∧ (e.path.dropLast = [] ∨
    ∃ d ∈ entries, d.path = e.path.dropLast ∧ d.node.isDir = true)

namespace SourceTree

/-- The tree of the root directory alone. -/
def empty : SourceTree := ⟨[], [], by simp, by simp, by simp⟩

/-- The node at a path. The root is a directory. -/
def node? (T : SourceTree) (p : Path) : Option SourceNode :=
  if p = [] then some (.dir 0) else (T.entries.find? (·.path = p)).map (·.node)

/-- The entries of the directory at `p`. -/
def children (T : SourceTree) (p : Path) : List Dirent :=
  T.entries.filterMap fun e =>
    if e.path.dropLast = p then
      e.path.getLast?.map fun name => ⟨name, if e.typeKnown then e.node.dType else .unknown⟩
    else none

/-- The components `p` followed from the directory `done`. `viaLink` goes on behind a link. -/
def walk (T : SourceTree) (viaLink : Path → Option Path) : Path → Path → Option Path
  | done, [] => some done
  | done, c :: rest =>
    -- The parent of the root is the root.
    if c = ['.', '.'] then walk T viaLink done.dropLast rest
    else
      match T.node? (done ++ [c]) with
      -- A link is replaced by its target, which starts at the root.
      | some (.link target) => viaLink (target ++ rest)
      | some (.dir _) => walk T viaLink (done ++ [c]) rest
      -- Nothing is below an entry that is no directory.
      | some _ => if rest = [] then some (done ++ [c]) else none
      | none => none

/-- The path without links that `p` leads to from `done`, behind at most `n - 1` links. -/
def follow (T : SourceTree) : Nat → Path → Path → Option Path
  | 0, _, _ => none
  | n + 1, done, p => T.walk (T.follow n []) done p

/-- The number of links a path may go through. -/
def maxLinks : Nat := 40

/-- The directory that a path string is followed from. -/
def start (T : SourceTree) (s : Str) : Path := if s.head? = some '/' then [] else T.cwd

/-- The components `p` followed from `done`, with every link, and what is there. -/
def lookup (T : SourceTree) (done p : Path) : Option (Path × SourceNode) :=
  (T.follow (maxLinks + 1) done p).bind fun q => (T.node? q).map (q, ·)

/-- The directory that components lead to when every link is followed. -/
def directory (T : SourceTree) (done p : Path) : Option Path :=
  match T.lookup done p with
  | some (q, .dir _) => some q
  | _ => none

/-- `opendir` with the entries `readdir` then returns. The empty string names nothing. -/
def opendir (T : SourceTree) (s : Str) : Option (List Dirent) :=
  if s = [] then none else (T.directory (T.start s) (components s)).map T.children

/-- The place of the entry a path names, when links are followed in all but its last
component. -/
def locate (T : SourceTree) (s : Str) : Option Path :=
  match (components s).getLast? with
  | some name => (T.directory (T.start s) (components s).dropLast).map (· ++ [name])
  | none => none

end SourceTree

/-- An open file: its `st_size` and `st_mode`, and its contents. A directory has none. -/
structure SourceHandle where
  size : Nat
  mode : Nat
  data : Option FileData
deriving DecidableEq

namespace SourceTree

/-- The `st_mode` of the entry at a path. -/
def modeAt (T : SourceTree) (p : Path) : Nat :=
  ((T.entries.find? (·.path = p)).map (·.mode)).getD 0

/-- `open(s, O_RDONLY)` and what `fstat` says of it. -/
def openFile (T : SourceTree) (s : Str) : Option SourceHandle :=
  if s = [] then none
  else
    match T.lookup (T.start s) (components s) with
    | some (q, .file b) => some ⟨b.val.length, T.modeAt q, some b⟩
    | some (q, .dir size) => some ⟨size, T.modeAt q, none⟩
    | _ => none

/-! ### Removing an entry -/

/-- No entry is below an entry that is no directory. -/
theorem no_children_of_not_dir (T : SourceTree) {d : TreeEntry} (hd : d ∈ T.entries)
    (hnode : d.node.isDir = false) : ∀ e ∈ T.entries, e.path.dropLast ≠ d.path := by
  intro e he heq
  rcases (T.parents e he).2 with h0 | ⟨d', hd', hpath, hdir⟩
  -- The entry would be the root, which has none.
  · exact (T.parents d hd).1 (heq.symm.trans h0)
  · have hsame : d' = d :=
      List.inj_on_of_nodup_map T.nodup hd' hd (hpath.trans heq)
    rw [hsame, hnode] at hdir
    exact Bool.false_ne_true hdir

/-- The tree without the entry at `p`, which has no entry below it. -/
def erase (T : SourceTree) (p : Path) (h : ∀ e ∈ T.entries, e.path.dropLast ≠ p) :
    SourceTree where
  entries := T.entries.filter (·.path ≠ p)
  cwd := T.cwd
  names e he := T.names e (List.mem_filter.mp he).1
  nodup := T.nodup.sublist (List.Sublist.map _ List.filter_sublist)
  -- The parent of an entry that stays is not `p`, because nothing is below `p`.
  parents e he := by
    have heT := (List.mem_filter.mp he).1
    obtain ⟨hne, hpar⟩ := T.parents e heT
    refine ⟨hne, hpar.imp_right fun ⟨d, hd, hpath, hdir⟩ => ⟨d, ?_, hpath, hdir⟩⟩
    exact List.mem_filter.mpr ⟨hd, by simpa [hpath] using h e heT⟩

/-- What `remove` has taken away: the place of the entry and its node. -/
structure Removed where
  place : Path
  node : SourceNode
deriving DecidableEq

/-- The last component of the string is `.`, which `rmdir` and `unlink` refuse. -/
def endsInDot (s : Str) : Bool := s = ['.'] ∨ ['/', '.'] <:+ s

/-- `remove(s)`: `unlink` for an entry that is no directory, unless `s` ends with a slash,
and `rmdir` for a directory, which must be empty. -/
def remove (T : SourceTree) (s : Str) : Option (Removed × SourceTree) :=
  match T.locate s with
  | none => none
  | some p =>
    match T.entries.find? (·.path = p) with
    | none => none
    | some e =>
      -- `unlink` takes a link itself, and not what it leads to.
      if endsInDot s ∨ e.node.isDir = false ∧ s.getLast? = some '/' then none
      else if h : ∀ e ∈ T.entries, e.path.dropLast ≠ p then
        some (⟨p, e.node⟩, T.erase p h)
      else none

end SourceTree

end Remi
