import Remi.Common
import Mathlib.Logic.Function.Basic

/-!
# `Remi.Server.Registry`: the providers of a process

The constructor and the destructor of a provider, and the process-wide table
`s_registered_providers` that they write and `remi_provider_registered` reads. A provider is an
object at an address. Addresses, margo instances, ABT-IO instances and pools are numbers, and
`none` is a null handle.

The member `m_pool` is a reference, and what it refers to is a local variable of
`remi_provider_register`. When the function has returned the reference dangles: what is read
through it is what the memory contains then.
-/

set_option autoImplicit false

namespace Remi

/-- An address of a provider object. -/
abbrev Ptr := Nat

/-- What the constructor of a provider is given, with the ABT-IO instance that may be changed
later. -/
structure Construction where
  mid : Nat
  providerId : UInt16
  abtio : Option Nat
  pool : Option Nat
deriving DecidableEq

/-- A construction or a destruction of a provider. -/
inductive Change where
  | constructed (p : Ptr) (c : Construction)
  | destroyed (p : Ptr) (c : Construction)
deriving DecidableEq

def Change.providerId : Change → UInt16
  | .constructed _ c => c.providerId
  | .destroyed _ c => c.providerId

/-- What a change leaves in the table under its provider id. -/
def Change.entry : Change → Option Ptr
  | .constructed p _ => some p
  | .destroyed _ _ => none

/-- The providers of a process. -/
structure Process where
  /-- `s_registered_providers` -/
  registry : UInt16 → Option Ptr
  /-- The objects that have been constructed and not been destroyed. -/
  object : Ptr → Option Construction
  /-- History: the constructions and destructions, the last one first. -/
  history : List Change

namespace Process

/-- A process without providers. -/
def init : Process := ⟨fun _ => none, fun _ => none, []⟩

end Process

/-- `remi_provider_register` at the address `p` that `new` returns. -/
def remiProviderRegister (s : Process) (p : Ptr) (mid : Nat) (abtio : Option Nat)
    (providerId : UInt16) (pool : Option Nat) : Process where
  registry := Function.update s.registry providerId (some p)
  object := Function.update s.object p (some { mid, providerId, abtio, pool })
  history := .constructed p { mid, providerId, abtio, pool } :: s.history

/-- `remi_provider_destroy`. The destructor erases the entry of its provider id. -/
def remiProviderDestroy (s : Process) (p : Ptr) : Option Process :=
  (s.object p).map fun c =>
    { registry := Function.update s.registry c.providerId none
      object := Function.update s.object p none
      history := .destroyed p c :: s.history }

def remiProviderSetAbtIoInstance (s : Process) (p : Ptr) (abtio : Option Nat) :
    Option Process :=
  (s.object p).map fun c => { s with object := Function.update s.object p (some { c with abtio }) }

/-- The variables behind the out-pointers of `remi_provider_registered`. -/
structure OutArgs where
  flag : Int
  abtio : Option Nat
  pool : Option Nat
  provider : Option Ptr
deriving DecidableEq

/-- `remi_provider_registered`. The flags say which of the pointers `abtio`, `pool` and
`provider` are not null. `memory` is what is read through a dangling `m_pool`. There is no
result when the table has an object that does not exist any more. -/
def remiProviderRegistered (s : Process) (memory : Option Nat) (_mid : Nat) (providerId : UInt16)
    (abtio pool provider : Bool) (out : OutArgs) : Option OutArgs :=
  match s.registry providerId with
  | none => some
      { out with
        -- `*abtio` is not written when there is no provider.
        pool := if pool then none else out.pool
        provider := if provider then none else out.provider
        flag := 0 }
  | some p => (s.object p).map fun c =>
      { provider := if provider then some p else out.provider
        abtio := if abtio then c.abtio else out.abtio
        -- `p->m_pool` refers to a variable that is gone.
        pool := if pool then memory else out.pool
        flag := 1 }

/-- The calls on the providers of a process. -/
inductive ProcessCall where
  | register (p : Ptr) (c : Construction)
  | destroy (p : Ptr)
  | setAbtIoInstance (p : Ptr) (abtio : Option Nat)

/-- The process after a call. -/
def Process.next (s : Process) : ProcessCall → Option Process
  | .register p c => some (remiProviderRegister s p c.mid c.abtio c.providerId c.pool)
  | .destroy p => remiProviderDestroy s p
  | .setAbtIoInstance p abtio => remiProviderSetAbtIoInstance s p abtio

/-- The provider at `p` is live, and has been registered on `mid` with `providerId`. -/
def Process.Live (s : Process) (mid : Nat) (providerId : UInt16) (p : Ptr) (c : Construction) :
    Prop :=
  s.object p = some c ∧ c.mid = mid ∧ c.providerId = providerId

/-- The last construction or destruction of a provider with this id, on whatever instance. -/
def Process.lastChange (s : Process) (providerId : UInt16) : Option Change :=
  s.history.find? (·.providerId = providerId)

/-- `new` returns an address that is not in use, and no provider with this id is live on the
margo instance. -/
def Process.Allows (s : Process) : ProcessCall → Prop
  | .register p c => s.object p = none ∧ ∀ q d, ¬ s.Live c.mid c.providerId q d
  | _ => True

end Remi
