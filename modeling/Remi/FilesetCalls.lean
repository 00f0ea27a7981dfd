import Remi.Client.Migrate
import Remi.Server.Sequential

/-!
# `Remi.FilesetCalls`: the calls a user makes on a fileset

A `FilesetCall` is a call of a public function that is handed a fileset it may change, with
the other arguments of the call. A sequence of calls is followed as long as each is accepted,
that is, returns `REMI_SUCCESS`.

The functions that only read a fileset are left out. `remi_fileset_migrate` is there because it
writes the root and both sets before it puts them back.
-/

set_option autoImplicit false

namespace Remi

open Remi.Lib

/-- The other arguments of `remi_fileset_migrate`, with the source tree and the provider that
the call meets. -/
structure Migration where
  tree : SourceTree
  io : ClientIo
  env : Env
  site : Site
  /-- The provider has an ABT-IO instance. -/
  abtio : Bool
  ph : Option RemiProviderHandle
  remoteRoot : Option Str
  removeSource : Int
  mode : Int
  status : Int

def Migration.run (m : Migration) (fileset : Option Fileset) : MigrateResult Site :=
  remiFilesetMigrate (providerRpc m.env m.abtio) m.io m.tree m.ph fileset m.remoteRoot
    m.removeSource m.mode m.status m.site

inductive FilesetCall where
  | setXferSize (size : Nat)
  | setProviderId (providerId : UInt16)
  | setRoot (root : Option Str)
  | registerFile (filename : Option Str)
  | deregisterFile (filename : Option Str)
  | registerDirectory (dirname : Option Str)
  | deregisterDirectory (dirname : Option Str)
  | registerMetadata (key : Option Str) (value : Str)
  | deregisterMetadata (key : Option Str)
  | migrate (m : Migration)

namespace FilesetCall

/-- The call on a fileset: its code and the fileset after it. -/
def call : FilesetCall → Option Fileset → Ret × Option Fileset
  | .setXferSize size, fs => remiFilesetSetXferSize fs size
  | .setProviderId providerId, fs => remiFilesetSetProviderId fs providerId
  | .setRoot root, fs => remiFilesetSetRoot fs root
  | .registerFile filename, fs => remiFilesetRegisterFile fs filename
  | .deregisterFile filename, fs => remiFilesetDeregisterFile fs filename
  | .registerDirectory dirname, fs => remiFilesetRegisterDirectory fs dirname
  | .deregisterDirectory dirname, fs => remiFilesetDeregisterDirectory fs dirname
  | .registerMetadata key value, fs => remiFilesetRegisterMetadata fs key value
  | .deregisterMetadata key, fs => remiFilesetDeregisterMetadata fs key
  | .migrate m, fs => ((m.run fs).ret, (m.run fs).fileset)

/-- The fileset after an accepted call. -/
def accepted (fs : Fileset) (c : FilesetCall) : Option Fileset :=
  if (c.call (some fs)).1 = .success then (c.call (some fs)).2 else none

end FilesetCall

/-- The fileset after a sequence of calls that are all accepted. -/
def callAll (calls : List FilesetCall) (fs : Fileset) : Option Fileset :=
  calls.foldlM FilesetCall.accepted fs

end Remi
