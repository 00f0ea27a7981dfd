import Remi.SourceTree
import Remi.Lib.CString
import Remi.Server.State

/-!
# `Remi.FsUtil`: `fs-util.hpp`

`mkdirs` creates the directories of a target on the provider. It cuts its string in place, and
`mkdirsInPlace` is that code, with every access to the memory of the string. `listFiles` finds
the files below a registered directory of the source, and `removeRec` removes such a directory. Both
walk the same tree with a code of their own.

`fuel` bounds the depth of a recursion. A step goes one directory down, so the number of
entries of the tree is more than enough (`SourceTree.fuel`).
-/

set_option autoImplicit false

namespace Remi

open Remi.Lib

/-! ### `mkdirs` -/

/-- The scan of `mkdirs` over the rest of the string, where `done` is what lies before the
pointer: `mkdir` for what lies before every slash, and for the whole string. -/
def mkdirsFrom (done : Str) : Str → List Str
  | [] => [done]
  | c :: cs => if c = '/' then done :: mkdirsFrom (done ++ [c]) cs
      else mkdirsFrom (done ++ [c]) cs

/-- The arguments of the `mkdir` calls of `mkdirs`, in order. A slash at the end of the
string is cut off, and the scan starts behind the first character. -/
def mkdirsCalls (dir : Str) : List Str :=
  -- `tmp[len - 1] = 0`
  let tmp := if dir.getLast? = some '/' then dir.dropLast else dir
  match tmp with
  | [] => [[]]
  | c :: cs => mkdirsFrom [c] cs

/-- The `mkdir` calls on a list of directories. -/
def mkdirAll : List Str → Handler Unit
  | [] => pure ()
  | d :: ds => do
    issue (.mkdir d)
    mkdirAll ds

def mkdirs (dir : Str) : Handler Unit := mkdirAll (mkdirsCalls dir)

/-- `a - b` on values of the type `size_t`. -/
def sizeSub (a b : Nat) : Nat := if b ≤ a then a - b else sizeModulus + a - b

/-- The loop of `mkdirs`, with the pointer at `p`: the directories that `mkdir` is called on,
and the memory of `tmp` after it. There is no result when an access is outside of the string,
or when the loop has not ended after `fuel` steps. -/
def mkdirsLoop : Nat → Nat → Cells Char → Option (List Str × Cells Char)
  | 0, _, _ => none
  | fuel + 1, p, tmp =>
    match tmp.read p with
    | none => none
    | some none => some ([], tmp)
    | some (some c) =>
      if c = '/' then do
        -- The string ends at the slash for the time of the call.
        let tmp ← tmp.write p none
        let dir ← tmp.cStr
        let tmp ← tmp.write p (some '/')
        let (dirs, tmp) ← mkdirsLoop fuel (p + 1) tmp
        pure (dir :: dirs, tmp)
      else mkdirsLoop fuel (p + 1) tmp

/-- `mkdirs` on the memory of its string: the arguments of the `mkdir` calls. -/
def mkdirsInPlace (dir : Str) : Option (List Str) := do
  let tmp := Cells.ofList dir
  let len := dir.length
  -- For an empty string `len - 1` is the largest `size_t`, which is outside.
  let last ← tmp.read (sizeSub len 1)
  let tmp ← if last = some '/' then tmp.write (sizeSub len 1) none else pure tmp
  let (dirs, tmp) ← mkdirsLoop tmp.length 1 tmp
  let dir ← tmp.cStr
  pure (dirs ++ [dir])

/-! ### `listFiles` -/

/-- `d_name[0] == '.'`. -/
def Dirent.hidden (f : Dirent) : Bool := f.name.head? = some '.'

/-- `listFiles`: the names the callback is called with, in order. -/
def listFiles (T : SourceTree) (root : Str) : Nat → Str → List Str
  | 0, _ => []
  | fuel + 1, path =>
    match T.opendir (root ++ ['/'] ++ path) with
    | none => []
    | some dir => dir.flatMap fun (f : Dirent) =>
        -- A hidden entry is passed over, and with it all that is below a hidden directory.
        if f.hidden then []
        else if f.type = DType.dir then listFiles T root fuel (path ++ f.name ++ ['/'])
        else if f.type = DType.reg then [path ++ f.name]
        else []

/-! ### `removeRec` -/

/-- The tree while entries are removed, with the entries removed so far. -/
structure RemoveState where
  tree : SourceTree
  removed : List SourceTree.Removed

namespace RemoveState

/-- One call of `remove`, whose result is ignored. -/
def remove (st : RemoveState) (s : Str) : RemoveState :=
  match st.tree.remove s with
  | some (r, T) => ⟨T, st.removed ++ [r]⟩
  | none => st

end RemoveState

def removeRec : Nat → Str → RemoveState → RemoveState
  | 0, _, st => st
  | fuel + 1, path, st =>
    let st' :=
      match st.tree.opendir path with
      | none => st
      | some dir => dir.foldl (fun st (f : Dirent) =>
          if f.hidden then st
          -- A directory is removed by the call for it, when nothing is left in it.
          else if f.type = DType.dir then removeRec fuel (path ++ f.name ++ ['/']) st
          else st.remove (path ++ f.name)) st
    -- The directory itself is removed also when it could not be read.
    st'.remove path

/-- A bound on the depth of the walks. -/
def SourceTree.fuel (T : SourceTree) : Nat := T.entries.length + 2

/-- `remi_fileset_walkthrough`, with the set its callback is called on in order: the
registered files and what `listFiles` finds below the registered directories. -/
def remiFilesetWalkthrough (T : SourceTree) (fileset : Fileset) : SortedSet Str :=
  fileset.directories.toList.foldl
    (fun files dirname => (listFiles T fileset.root T.fuel dirname).foldl SortedSet.insert files)
    (fileset.files.toList.foldl SortedSet.insert SortedSet.empty)

end Remi
