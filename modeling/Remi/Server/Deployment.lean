import Remi.Lib.Custody
import Remi.Server.Classes
import Remi.Server.Registry

/-!
# `Remi.Server.Deployment`: the providers of a process up to their end

`remi_provider_register` leaves a finalize callback on the margo instance of the provider.
`remi_provider_destroy` takes it off again and calls it. An instance that is finalized calls the
callbacks that are left, the last one pushed first. In both ways `remi_on_finalize` frees the
arguments of the classes and deletes the provider.

Each provider has its own classes, operations and events (`Hosted`). The file system is the one
of the machine, which all of them use.
-/

set_option autoImplicit false

namespace Remi

open Remi.Lib

/-- The providers of a process with the finalize callbacks of the margo instances. -/
structure Deployment where
  process : Process
  hosted : Ptr → Option Hosted
  fs : Fs
  /-- The finalize callbacks of an instance, the last one pushed first. The owner of a callback
  and its argument are the provider. -/
  callbacks : Nat → List Ptr
  /-- History: the providers that have been deleted, each with the free functions that
  `remi_on_finalize` has called for it. -/
  finalized : List (Hosted × List FreeCall)

/-- The provider in a file system. -/
def Hosted.inFs (s : Hosted) (fs : Fs) : Hosted :=
  ⟨{ s.site with provider := { s.site.provider with fs } }, s.events⟩

/-- A call on the providers, or the finalization of a margo instance. `keys` is the order in
which `remi_on_finalize` finds the classes in the table. -/
inductive DeploymentCall where
  | register (p : Ptr) (c : Construction)
  | destroy (p : Ptr) (keys : List ClassKey)
  | setAbtIoInstance (p : Ptr) (abtio : Option Nat)
  | call (p : Ptr) (env : Env) (c : ProviderCall)
  | margoFinalize (mid : Nat) (keys : Ptr → List ClassKey)

namespace Deployment

/-- A process without providers. -/
def init (fs : Fs) : Deployment := ⟨.init, fun _ => none, fs, fun _ => [], []⟩

/-- `remi_on_finalize`. There is no result when the provider does not exist. -/
def onFinalize (s : Deployment) (p : Ptr) (keys : List ClassKey) : Option Deployment :=
  (s.hosted p).bind fun h => (remiProviderDestroy s.process p).map fun process =>
    { s with
      process
      hosted := Function.update s.hosted p none
      finalized := (h, remiOnFinalize keys h.site.provider) :: s.finalized }

/-- `margo_provider_pop_finalize_callback`: the last callback of the owner `p` is removed. -/
def popFinalizeCallback (s : Deployment) (mid : Nat) (p : Ptr) : Deployment :=
  { s with callbacks := Function.update s.callbacks mid ((s.callbacks mid).erase p) }

/-- The callbacks `ps` are called, one after the other. -/
def finalizeAll (keys : Ptr → List ClassKey) (ps : List Ptr) (s : Deployment) :
    Option Deployment :=
  ps.foldlM (fun s p => s.onFinalize p (keys p)) s

/-- The state after a call. There is none when the call uses a provider that does not exist. -/
def next (s : Deployment) : DeploymentCall → Option Deployment
  | .register p c => some
      { s with
        process := remiProviderRegister s.process p c.mid c.abtio c.providerId c.pool
        hosted := Function.update s.hosted p (some (.init s.fs))
        callbacks := Function.update s.callbacks c.mid (p :: s.callbacks c.mid) }
  | .destroy p keys =>
    (s.process.object p).bind fun c => (s.popFinalizeCallback c.mid p).onFinalize p keys
  | .setAbtIoInstance p abtio =>
    (remiProviderSetAbtIoInstance s.process p abtio).map fun process => { s with process }
  | .call p env c => (s.hosted p).map fun h =>
      let h := (h.inFs s.fs).step env c
      { s with hosted := Function.update s.hosted p (some h), fs := h.site.provider.fs }
  | .margoFinalize mid keys =>
    finalizeAll keys (s.callbacks mid) { s with callbacks := Function.update s.callbacks mid [] }

/-- The order `keys` is one in which the table of the provider may be gone through. -/
def Visited (s : Deployment) (p : Ptr) (keys : List ClassKey) : Prop :=
  ∀ h ∈ s.hosted p, Visits keys h.site.provider.classes

/-- `new` returns an address that is not in use, and the functions are called for providers that
exist. A margo instance may be finalized at any time. -/
def Allows (s : Deployment) : DeploymentCall → Prop
  | .register p _ => s.process.object p = none
  | .destroy p keys => s.process.object p ≠ none ∧ s.Visited p keys
  | .setAbtIoInstance p _ => s.process.object p ≠ none
  | .call p _ _ => s.process.object p ≠ none
  | .margoFinalize mid keys => ∀ p ∈ s.callbacks mid, s.Visited p (keys p)

end Deployment

/-- How often a provider has been constructed at an address. -/
def Process.constructions (s : Process) (p : Ptr) : Nat :=
  s.history.countP fun
    | .constructed q _ => q = p
    | .destroyed _ _ => false

/-- How often the provider at an address has been deleted. -/
def Process.deletions (s : Process) (p : Ptr) : Nat :=
  s.history.countP fun
    | .constructed _ _ => false
    | .destroyed q _ => q = p

end Remi
