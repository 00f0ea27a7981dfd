import Remi.Client.Transfer

/-!
# `Remi.Client.ComputeSize`: `remi_fileset_compute_size`

The size of the files of a fileset, and of its metadata when it is asked for. The callbacks
share an `AddSizeArgs`. The first file that cannot be looked at sets its `ret`, and the files
behind it are passed over.

A key or a value has no null character inside, so `strlen` is its length.
-/

set_option autoImplicit false

namespace Remi

/-- `struct add_size_args` without the fileset. -/
structure AddSizeArgs where
  size : Nat
  ret : Int
deriving DecidableEq, Repr

def addMetadataSize (args : AddSizeArgs) (entry : Str × Str) : AddSizeArgs :=
  -- The two null characters count.
  { args with size := (args.size + (entry.1.length + entry.2.length + 2)) % sizeModulus }

section
variable (io : ClientIo) (T : SourceTree)

/-- `add_file_size` for the file `i` of the walkthrough. -/
def addFileSize (root : Str) (i : Nat) (filename : Str) (args : AddSizeArgs) : AddSizeArgs :=
  -- A failure stays: the callback returns at once for every file behind it.
  if args.ret ≠ 0 then args
  else
    match if io.openFails i then none else T.openFile (root ++ filename) with
    | none => { args with ret := -1 }
    | some file =>
      if io.fstatFails i then { args with ret := -1 }
      else { args with size := (args.size + file.size) % sizeModulus }

/-- The calls of `add_file_size` on the files from number `i` on. -/
def addFileSizes (root : Str) : List Str → Nat → AddSizeArgs → AddSizeArgs
  | [], _, args => args
  | filename :: rest, i, args =>
    addFileSizes root rest (i + 1) (addFileSize io T root i filename args)

/-- The result, and what `*size` is afterwards. -/
def remiFilesetComputeSize (fileset : Option Fileset) (includeMetadata : Int) (size : Nat) :
    Ret × Nat :=
  match fileset with
  | none => (.errInvalidArg, size)
  | some fileset =>
    let files := remiFilesetWalkthrough T fileset
    let args := addFileSizes io T fileset.root files.toList 0 ⟨0, 0⟩
    -- The caller's `*size` is not written.
    if args.ret ≠ 0 then (.errIo, size)
    else if includeMetadata ≠ 0 then
      (.success, (fileset.metadata.entries.foldl addMetadataSize args).size)
    else (.success, args.size)

end

end Remi
