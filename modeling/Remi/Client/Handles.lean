import Remi.Client.Migrate
import Remi.Lib.FanIn

/-!
# `Remi.Client.Handles`: clients and provider handles

The functions of `remi-client.cpp` that make and delete clients and provider handles. A
`ClientHeap` holds the objects: each client has an engine of its own, and a handle keeps the address
of its client. A function has no result when it uses an object that does not exist.

`Callers` is the heap with the variables of the programs that use the library. A variable owns
a reference to a handle, or is null. Each call is one step. `Callers.Careful` says how a caller
treats what it has been given; nothing in the library checks it.
-/

set_option autoImplicit false

namespace Remi

open Remi.Lib

/-- An address of an object. -/
abbrev Address := Nat

/-- `struct remi_client`, without the remote procedures. Nothing reads `m_num_providers`. -/
structure RemiClient where
  mid : Nat
  engine : Address
  numProviders : UInt64
  abtio : Option Nat
deriving DecidableEq

/-- An object of type `remi_provider_handle`. -/
structure HandleObject where
  client : Option Address
  refCount : UInt64
  addr : Nat
  providerId : UInt16
deriving DecidableEq

/-- The objects of the library. An engine is the margo instance it has been made for. -/
structure ClientHeap where
  engine : Address → Option Nat
  client : Address → Option RemiClient
  handle : Address → Option HandleObject

namespace ClientHeap

def init : ClientHeap := ⟨fun _ => none, fun _ => none, fun _ => none⟩

def setEngine (s : ClientHeap) (e : Address) (o : Option Nat) : ClientHeap :=
  { s with engine := Function.update s.engine e o }

def setClient (s : ClientHeap) (c : Address) (o : Option RemiClient) : ClientHeap :=
  { s with client := Function.update s.client c o }

def setHandle (s : ClientHeap) (h : Address) (o : Option HandleObject) : ClientHeap :=
  { s with handle := Function.update s.handle h o }

/-- The client of a handle. -/
def clientOf (s : ClientHeap) (h : Address) : Option Address := (s.handle h).bind (·.client)

end ClientHeap

/-- `remi_client_init`, with the addresses that `new` returns for the engine and the client. -/
def remiClientInit (s : ClientHeap) (engine client : Address) (mid : Nat) (abtio : Option Nat) :
    Ret × ClientHeap :=
  (.success, (s.setEngine engine (some mid)).setClient client
    (some { mid, engine, numProviders := 0, abtio }))

def remiClientFinalize (s : ClientHeap) (client : Option Address) : Option (Ret × ClientHeap) :=
  match client with
  | none => some (.success, s)
  | some c =>
    (s.client c).bind fun o => (s.engine o.engine).map fun _ =>
      (.success, (s.setEngine o.engine none).setClient c none)

def remiClientSetAbtIoInstance (s : ClientHeap) (client : Option Address) (abtio : Option Nat) :
    Option (Ret × ClientHeap) :=
  match client with
  | none => some (.errInvalidArg, s)
  | some c => (s.client c).map fun o => (.success, s.setClient c (some { o with abtio }))

/-- `remi_provider_handle_create` at the address `h` that `new` returns. `identity` is what
`get_identity` returns, `none` when it throws. The second component of the result is what is
written to `*handle`. -/
def remiProviderHandleCreate (s : ClientHeap) (h : Address) (client : Option Address) (addr : Nat)
    (providerId : UInt16) (identity : Option Str) :
    Option (Ret × Option Address × ClientHeap) :=
  match client with
  | none => some (.errInvalidArg, none, s)
  | some c =>
    (s.client c).bind fun o => (s.engine o.engine).map fun _ =>
      let theHandle : HandleObject := { client := none, refCount := 0, addr, providerId }
      let s := s.setHandle h (some theHandle)
      -- The provider at the address has to be one of this library.
      if identity ≠ some ['r', 'e', 'm', 'i'] then (.errUnknownPr, none, s.setHandle h none)
      else
        (.success, some h, (s.setHandle h (some { theHandle with
            client := some c, refCount := 1 })).setClient c
          (some { o with numProviders := o.numProviders + 1 }))

def remiProviderHandleRefIncr (s : ClientHeap) (handle : Option Address) :
    Option (Ret × ClientHeap) :=
  match handle with
  | none => some (.errInvalidArg, s)
  | some h => (s.handle h).map fun o =>
      (.success, s.setHandle h (some { o with refCount := o.refCount + 1 }))

def remiProviderHandleRelease (s : ClientHeap) (handle : Option Address) :
    Option (Ret × ClientHeap) :=
  match handle with
  | none => some (.success, s)
  | some h => (s.handle h).bind fun o =>
      let theHandle : HandleObject := { o with refCount := o.refCount - 1 }
      if theHandle.refCount = 0 then
        -- The last reference: the handle takes itself off the count of its client.
        theHandle.client.bind fun c => (s.client c).map fun cl =>
          (.success, (s.setClient c (some { cl with
            numProviders := cl.numProviders - 1 })).setHandle h none)
      else some (.success, s.setHandle h (some theHandle))

/-- What `remi_fileset_migrate` is given by a handle: it uses the handle, its client and the
engine of the client. -/
def ClientHeap.providerHandle (s : ClientHeap) (ph : Option Address) :
    Option (Option RemiProviderHandle) :=
  match ph with
  | none => some none
  | some h =>
    (s.handle h).bind fun o => o.client.bind fun c => (s.client c).bind fun cl =>
      (s.engine cl.engine).map fun _ => some ⟨cl.abtio.isSome⟩

/-! ### The callers -/

/-- A variable of a caller, for a provider handle. -/
abbrev Var := Nat

/-- The objects, and the reference that each variable owns. -/
structure Callers where
  heap : ClientHeap
  vars : Var → Option Address

/-- A call. The functions on handles are given variables, and `none` is a null client. -/
inductive HandleCall where
  | clientInit (engine client : Address) (mid : Nat) (abtio : Option Nat)
  | clientFinalize (client : Option Address)
  | setAbtIoInstance (client : Option Address) (abtio : Option Nat)
  | create (x : Var) (h : Address) (client : Option Address) (addr : Nat) (providerId : UInt16)
      (identity : Option Str)
  /-- The variable `y` gets the new reference to the handle of `x`. -/
  | refIncr (x y : Var)
  | release (x : Var)
  | migrate (x : Var)

namespace Callers

def init : Callers := ⟨.init, fun _ => none⟩

/-- The state after a call. There is none when the call uses an object that does not exist. -/
def next (s : Callers) : HandleCall → Option Callers
  | .clientInit engine client mid abtio =>
    some { s with heap := (remiClientInit s.heap engine client mid abtio).2 }
  | .clientFinalize client =>
    (remiClientFinalize s.heap client).map fun r => { s with heap := r.2 }
  | .setAbtIoInstance client abtio =>
    (remiClientSetAbtIoInstance s.heap client abtio).map fun r => { s with heap := r.2 }
  | .create x h client addr providerId identity =>
    (remiProviderHandleCreate s.heap h client addr providerId identity).map fun r =>
      ⟨r.2.2, Function.update s.vars x (r.2.1.or (s.vars x))⟩
  | .refIncr x y =>
    (remiProviderHandleRefIncr s.heap (s.vars x)).map fun r =>
      ⟨r.2, Function.update s.vars y (s.vars x)⟩
  -- A variable that has been released is not used again.
  | .release x =>
    (remiProviderHandleRelease s.heap (s.vars x)).map fun r =>
      ⟨r.2, Function.update s.vars x none⟩
  | .migrate x => (s.heap.providerHandle (s.vars x)).map fun _ => s

/-- A client that is null or has not been finalized. -/
def Usable (s : Callers) (client : Option Address) : Prop := ∀ c ∈ client, s.heap.client c ≠ none

/-- What a caller observes, except for the time at which it finalizes a client. The variable that
gets a reference has none, `new` returns an address that is not in use, and the counters have room
for one more. -/
def Owned (s : Callers) : HandleCall → Prop
  | .clientInit engine client _ _ => s.heap.engine engine = none ∧ s.heap.client client = none
  | .clientFinalize client => s.Usable client
  | .setAbtIoInstance client _ => s.Usable client
  | .create x h client _ _ _ => s.vars x = none ∧ s.heap.handle h = none ∧ s.Usable client ∧
      ∀ c ∈ client, fanIn s.heap.clientOf c + 1 < 2 ^ 64
  | .refIncr x y => s.vars y = none ∧ ∀ h ∈ s.vars x, fanIn s.vars h + 1 < 2 ^ 64
  | .release _ => True
  | .migrate _ => True

/-- A client is finalized only when its count of handles is 0. -/
def Drained (s : Callers) : HandleCall → Prop
  | .clientFinalize client => ∀ c ∈ client, ∀ o, s.heap.client c = some o → o.numProviders = 0
  | _ => True

def Careful (s : Callers) (l : HandleCall) : Prop := s.Owned l ∧ s.Drained l

end Callers

end Remi
