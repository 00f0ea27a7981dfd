import Remi.Client.Transfer

/-!
# `Remi.Client.Migrate`: `remi_fileset_migrate`

The checks of the arguments, the walkthrough, the transfer and the removal of the source.
-/

set_option autoImplicit false

namespace Remi

open Remi.Lib

/-- `struct remi_provider_handle`: whether `m_client->m_abtio` is an ABT-IO instance. -/
structure RemiProviderHandle where
  abtio : Bool
deriving DecidableEq

/-- What `remi_fileset_migrate` leaves: its result, `*status`, the caller's fileset, the
source tree with what has been removed from it, and the state of the provider. -/
structure MigrateResult (σ : Type) where
  ret : Ret
  status : Int
  fileset : Option Fileset
  source : RemoveState
  server : σ

/-- The remote root, ending with a slash. -/
def completeRoot (remoteRoot : Str) : Str :=
  if remoteRoot.getLast? ≠ some '/' then remoteRoot ++ ['/'] else remoteRoot

/-- The removal of the migrated files and of the registered directories. -/
def removeSources (T : SourceTree) (fileset : Fileset) (files : SortedSet Str) : RemoveState :=
  let st := files.toList.foldl (fun st filename => st.remove (fileset.root ++ filename)) ⟨T, []⟩
  fileset.directories.toList.foldl
    (fun st dirname => removeRec T.fuel (fileset.root ++ dirname) st) st

/-- The transfer that `mode` selects. -/
def transfer {σ : Type} (rpc : Rpc σ) (io : ClientIo) (T : SourceTree)
    (ph : RemiProviderHandle) (mode : Int) (fileset : Fileset) (files : SortedSet Str)
    (remoteRoot : Str) (status : Int) (st : σ) : Migrated σ :=
  if mode = remiUseMmap then migrateUsingMmap rpc io T fileset files remoteRoot status st
  else migrateUsingAbtio rpc io T ph.abtio fileset files remoteRoot status st

def remiFilesetMigrate {σ : Type} (rpc : Rpc σ) (io : ClientIo) (T : SourceTree)
    (ph : Option RemiProviderHandle) (fileset : Option Fileset) (remoteRoot : Option Str)
    (removeSource mode status : Int) (st : σ) : MigrateResult σ :=
  match ph, fileset, remoteRoot with
  | some ph, some fileset, some remoteRoot =>
    if remoteRoot.head? ≠ some '/' then
      ⟨.errInvalidArg, status, some fileset, ⟨T, []⟩, st⟩
    else
      -- The files are listed once, here. What is removed at the end are these names.
      let files := remiFilesetWalkthrough T fileset
      let m := transfer rpc io T ph mode fileset files (completeRoot remoteRoot) status st
      if m.ret ≠ .success then ⟨m.ret, m.status, some m.fileset, ⟨T, []⟩, m.server⟩
      -- The status is the caller's own when no RPC has written it.
      else if m.status ≠ 0 then ⟨.errUser, m.status, some m.fileset, ⟨T, []⟩, m.server⟩
      else if removeSource = remiRemoveSource then
        ⟨.success, m.status, some m.fileset, removeSources T m.fileset files, m.server⟩
      else ⟨.success, m.status, some m.fileset, ⟨T, []⟩, m.server⟩
  | _, _, _ => ⟨.errInvalidArg, status, fileset, ⟨T, []⟩, st⟩

end Remi
