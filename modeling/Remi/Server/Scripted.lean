import Remi.Client.Migrate
import Remi.Server.Sequential

/-!
# `Remi.Server.Scripted`: a client whose answers are known

The RPCs of a client over a function `send`, which delivers a request and answers it, or does not.
When the answers are given beforehand, a migration makes a result of them, and a list of requests
on the way. `System.Migrates` says that a client of a provider with many handlers is such a
migration: the requests that it has sent are those on the list, for the answers that it has got.
-/

set_option autoImplicit false

namespace Remi

/-! ### The answers of each kind -/

def startAnswer : Option Response → Ret × Int × Uuid
  | some (.start ret status operationId) => (ret, status, operationId)
  | _ => (.errMercury, 0, 0)

def mmapAnswer : Option Response → Ret
  | some (.mmap ret) => ret
  | _ => .errMercury

def writeAnswer : Option Response → Ret
  | some (.write ret) => ret
  | _ => .errMercury

def endAnswer : Option Response → Ret × Int
  | some (.end_ ret status) => (ret, status)
  | _ => (.errMercury, 0)

/-- The RPCs of a client whose requests `send` delivers. A request without an answer of its kind
fails. -/
def sendRpc {σ : Type} (send : Request → σ → Option Response × σ) : Rpc σ where
  start fileset theSizes theModes st :=
    let (answer, st) := send (.start fileset theSizes theModes) st
    (startAnswer answer, st)
  mmap operationId remoteBulk st :=
    let (answer, st) := send (.mmap operationId remoteBulk) st
    (mmapAnswer answer, st)
  write operationId fileNumber writeOffset data st :=
    let (answer, st) := send (.write operationId fileNumber writeOffset data) st
    (writeAnswer answer, st)
  end_ operationId st :=
    let (answer, st) := send (.end_ operationId) st
    (endAnswer answer, st)

/-- The request number `n` gets the answer `answers n`. The state lists the requests so far. -/
def scripted (answers : Nat → Option Response) (q : Request) (sent : List Request) :
    Option Response × List Request :=
  (answers sent.length, sent ++ [q])

/-- The arguments of `remi_fileset_migrate`, with the world of the client. -/
structure MigrateArgs where
  io : ClientIo
  tree : SourceTree
  ph : Option RemiProviderHandle
  fileset : Option Fileset
  remoteRoot : Option Str
  removeSource : Int
  mode : Int
  status : Int

/-- `remi_fileset_migrate` with the RPCs `rpc`. -/
def MigrateArgs.migrate {σ : Type} (args : MigrateArgs) (rpc : Rpc σ) (st : σ) :
    MigrateResult σ :=
  remiFilesetMigrate rpc args.io args.tree args.ph args.fileset args.remoteRoot args.removeSource
    args.mode args.status st

namespace System

/-- What a migration makes of the answers that the client `m` has got, with the requests that it
sends for it. -/
def migrated (P : System) (m : Nat) (args : MigrateArgs) : MigrateResult (List Request) :=
  args.migrate (sendRpc (scripted fun n => P.shared.responses ⟨m, n⟩)) []

/-- The client `m` has sent the requests of a migration. -/
def Migrates (P : System) (m : Nat) (args : MigrateArgs) : Prop :=
  ∀ n, (P.migrated m args).server[n]? = (P.thread ⟨m, n⟩).map (·.req)

end System

end Remi
