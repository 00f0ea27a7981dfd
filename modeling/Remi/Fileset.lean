import Remi.Common
import Remi.Lib.SortedMap
import Remi.Lib.SortedSet
import Mathlib.Data.List.Lex
import Mathlib.Data.Char

/-!
# `Remi.Fileset`: the fileset and the functions that change it

`remi-fileset.hpp` and the mutating functions of `remi-fileset.cpp`. A pointer argument is
an `Option`, with `none` for a null pointer. Each function returns its code and the fileset
behind the pointer.

`m_xfer_size` is a positive number by its type: the default is positive, and the only
function that writes it refuses 0.
-/

set_option autoImplicit false

namespace Remi

open Remi.Lib

/-- `struct remi_fileset`. -/
structure Fileset where
  /-- `m_class` -/
  className : Str
  providerId : UInt16
  root : Str
  metadata : SortedMap Str Str
  files : SortedSet Str
  directories : SortedSet Str
  xferSize : {n : Nat // 0 < n}
deriving DecidableEq

/-- The value `m_xfer_size` starts with. -/
def defaultXferSize : {n : Nat // 0 < n} := ⟨1048576, by decide⟩

/-- `remi_fileset_create`. Nothing initialises `m_provider_id`: it keeps the contents
`memory` of the new object's memory. -/
def remiFilesetCreate (memory : UInt16) (filesetClass filesetRoot : Option Str) :
    Ret × Option Fileset :=
  match filesetClass, filesetRoot with
  | some cls, some root =>
    if root.head? ≠ some '/' then (.errInvalidArg, none)
    else
      (.success, some
        { className := cls
          providerId := memory
          root := if root.getLast? ≠ some '/' then root ++ ['/'] else root
          metadata := .empty
          files := .empty
          directories := .empty
          xferSize := defaultXferSize })
  | _, _ => (.errInvalidArg, none)

def remiFilesetSetXferSize (fileset : Option Fileset) (size : Nat) : Ret × Option Fileset :=
  match fileset with
  | some fs => if h : 0 < size then (.success, some { fs with xferSize := ⟨size, h⟩ })
      else (.errInvalidArg, some fs)
  | none => (.errInvalidArg, none)

def remiFilesetSetProviderId (fileset : Option Fileset) (providerId : UInt16) :
    Ret × Option Fileset :=
  match fileset with
  | some fs => (.success, some { fs with providerId })
  | none => (.errInvalidArg, none)

/-- `remi_fileset_set_root`: the string is stored as it is, a null pointer as the empty
string. -/
def remiFilesetSetRoot (fileset : Option Fileset) (root : Option Str) : Ret × Option Fileset :=
  match fileset with
  | some fs => (.success, some { fs with root := root.getD [] })
  | none => (.errInvalidArg, none)

/-- `while(filename[i] == '/') i += 1`. -/
def skipSlashes (name : Str) : Str := name.dropWhile (· = '/')

def remiFilesetRegisterFile (fileset : Option Fileset) (filename : Option Str) :
    Ret × Option Fileset :=
  match fileset, filename with
  | some fs, some name =>
    (.success, some { fs with files := fs.files.insert (skipSlashes name) })
  | _, _ => (.errInvalidArg, fileset)

def remiFilesetDeregisterFile (fileset : Option Fileset) (filename : Option Str) :
    Ret × Option Fileset :=
  match fileset, filename with
  | some fs, some name =>
    -- The name is compared in the form in which it has been registered.
    if skipSlashes name ∉ fs.files then (.errUnknownFile, fileset)
    else (.success, some { fs with files := fs.files.erase (skipSlashes name) })
  | _, _ => (.errInvalidArg, fileset)

def remiFilesetRegisterDirectory (fileset : Option Fileset) (dirname : Option Str) :
    Ret × Option Fileset :=
  match fileset, dirname with
  | some fs, some name =>
    (.success, some { fs with directories := fs.directories.insert (skipSlashes name) })
  | _, _ => (.errInvalidArg, fileset)

def remiFilesetDeregisterDirectory (fileset : Option Fileset) (dirname : Option Str) :
    Ret × Option Fileset :=
  match fileset, dirname with
  | some fs, some name =>
    if skipSlashes name ∉ fs.directories then (.errUnknownFile, fileset)
    else (.success, some { fs with directories := fs.directories.erase (skipSlashes name) })
  | _, _ => (.errInvalidArg, fileset)

def remiFilesetRegisterMetadata (fileset : Option Fileset) (key : Option Str) (value : Str) :
    Ret × Option Fileset :=
  match fileset, key with
  | some fs, some k => (.success, some { fs with metadata := fs.metadata.insert k value })
  | _, _ => (.errInvalidArg, fileset)

def remiFilesetDeregisterMetadata (fileset : Option Fileset) (key : Option Str) :
    Ret × Option Fileset :=
  match fileset, key with
  | some fs, some k =>
    if fs.metadata.find? k = none then (.errUnknownMeta, fileset)
    else (.success, some { fs with metadata := fs.metadata.erase k })
  | _, _ => (.errInvalidArg, fileset)

/-- The full names `m_root + filename` of the files of a fileset. -/
def Fileset.fullNames (fs : Fileset) : List Str := fs.files.toList.map (fs.root ++ ·)

end Remi
