import Remi.Server.Sequential

/-!
# `Remi.Server.Classes`: the registration of migration classes

The functions of `remi-server.cpp` that an administrator calls on a provider, and a provider
on which such calls and requests follow each other, each taken as one step. A `Hosted` provider
keeps the events of its steps. `Event.registered` is what the events say about the classes, without
a look at the table.
-/

set_option autoImplicit false

namespace Remi

open Remi.Lib

/-- `UINT16_MAX`, the provider id of a class that is registered without one. -/
def uint16Max : UInt16 := 65535

/-- A call of a user's function on the argument it has to free. -/
structure FreeCall where
  free : Nat
  uargs : Option Nat
deriving DecidableEq

/-- The call that frees the argument of a class. -/
def MigrationClass.freeCall (klass : MigrationClass) : List FreeCall :=
  match klass.free with
  | some free => [⟨free, klass.uargs⟩]
  | none => []

def remiProviderRegisterProviderMigrationClass (provider : Option Provider)
    (className : Option Str) (providerId : UInt16) (beforeCallback afterCallback : Option Nat)
    (free uargs : Option Nat) : Ret × Option Provider :=
  match provider, className with
  | some p, some name =>
    let key : ClassKey := ⟨name, providerId⟩
    -- A registered class is never replaced.
    if (p.classes key).isSome then (.errClassExists, provider)
    else
      let klass : MigrationClass := { beforeCallback, afterCallback, free, uargs }
      (.success, some { p with classes := Function.update p.classes key (some klass) })
  | _, _ => (.errInvalidArg, provider)

def remiProviderRegisterMigrationClass (provider : Option Provider) (className : Option Str)
    (beforeCallback afterCallback : Option Nat) (free uargs : Option Nat) :
    Ret × Option Provider :=
  remiProviderRegisterProviderMigrationClass provider className uint16Max beforeCallback
    afterCallback free uargs

/-- The deregistration, with the calls of free functions it makes. -/
def remiProviderDeregisterProviderMigrationClass (provider : Option Provider)
    (className : Option Str) (providerId : UInt16) : Ret × List FreeCall × Option Provider :=
  match provider, className with
  | some p, some name =>
    let key : ClassKey := ⟨name, providerId⟩
    match p.classes key with
    | none => (.errUnknownClass, [], provider)
    | some klass =>
      (.success, klass.freeCall,
        some { p with classes := Function.update p.classes key none })
  | _, _ => (.errInvalidArg, [], provider)

def remiProviderDeregisterMigrationClass (provider : Option Provider) (className : Option Str) :
    Ret × List FreeCall × Option Provider :=
  remiProviderDeregisterProviderMigrationClass provider className uint16Max

/-- `remi_on_finalize`: the calls it makes when it goes through the table in the order
`keys`. -/
def remiOnFinalize (keys : List ClassKey) (p : Provider) : List FreeCall :=
  keys.flatMap fun key => ((p.classes key).map MigrationClass.freeCall).getD []

/-! ### A provider under administration -/

/-- A call of an administrator, or a request. The provider may have an ABT-IO instance for the
one request and none for the next. -/
inductive ProviderCall where
  | registerMigrationClass (className : Option Str) (klass : MigrationClass)
  | registerProviderMigrationClass (className : Option Str) (providerId : UInt16)
      (klass : MigrationClass)
  | deregisterMigrationClass (className : Option Str)
  | deregisterProviderMigrationClass (className : Option Str) (providerId : UInt16)
  | request (abtio : Bool) (q : Request)

/-- What is seen of a step from outside: the call and its answer, the free functions it calls,
and the user callbacks it calls. -/
inductive Event where
  | register (className : Option Str) (providerId : UInt16) (klass : MigrationClass) (ret : Ret)
  | deregister (className : Option Str) (providerId : UInt16) (ret : Ret) (frees : List FreeCall)
  | request (q : Request) (answer : Option Response) (callbacks : List CallbackCall)

/-- A provider, with the events of its steps so far. -/
structure Hosted where
  site : Site
  events : List Event

namespace Hosted

/-- A provider without classes, before its first step. -/
def init (fs : Fs) : Hosted := ⟨.init (fun _ => none) fs, []⟩

/-- The provider after an administrative call. -/
def admin (s : Hosted) (provider : Option Provider) (e : Event) : Hosted :=
  ⟨{ s.site with provider := provider.getD s.site.provider }, s.events ++ [e]⟩

/-- One step. A request runs up to its end. -/
def step (env : Env) (s : Hosted) : ProviderCall → Hosted
  | .registerMigrationClass className klass =>
    let (ret, provider) := remiProviderRegisterMigrationClass (some s.site.provider) className
      klass.beforeCallback klass.afterCallback klass.free klass.uargs
    s.admin provider (.register className uint16Max klass ret)
  | .registerProviderMigrationClass className providerId klass =>
    let (ret, provider) := remiProviderRegisterProviderMigrationClass (some s.site.provider)
      className providerId klass.beforeCallback klass.afterCallback klass.free klass.uargs
    s.admin provider (.register className providerId klass ret)
  | .deregisterMigrationClass className =>
    let (ret, frees, provider) :=
      remiProviderDeregisterMigrationClass (some s.site.provider) className
    s.admin provider (.deregister className uint16Max ret frees)
  | .deregisterProviderMigrationClass className providerId =>
    let (ret, frees, provider) := remiProviderDeregisterProviderMigrationClass
      (some s.site.provider) className providerId
    s.admin provider (.deregister className providerId ret frees)
  | .request abtio q =>
    let (answer, site) := env.serve abtio q s.site
    let old := s.site.provider.callbacks.length
    -- The history has the newest call first.
    let callbacks := site.provider.callbacks.take (site.provider.callbacks.length - old)
    ⟨site, s.events ++ [.request q answer callbacks]⟩

/-- A step as a transition. -/
def next (env : Env) (s : Hosted) (c : ProviderCall) : Option Hosted := some (s.step env c)

end Hosted

/-! ### What the events say about the classes -/

namespace Event

/-- The classes after an event: a successful registration puts a class in, and a successful
deregistration takes it out. -/
def update (table : ClassKey → Option MigrationClass) : Event → ClassKey → Option MigrationClass
  | .register (some name) providerId klass ret =>
    if ret = .success then Function.update table ⟨name, providerId⟩ (some klass) else table
  | .deregister (some name) providerId ret _ =>
    if ret = .success then Function.update table ⟨name, providerId⟩ none else table
  | _ => table

/-- The class that an event registers, when it is accepted. -/
def accepted : Event → List MigrationClass
  | .register (some _) _ klass ret => if ret = .success then [klass] else []
  | _ => []

/-- The free functions that an event calls. -/
def frees : Event → List FreeCall
  | .deregister _ _ _ frees => frees
  | _ => []

/-- The user callbacks that an event calls. -/
def callbacks : Event → List CallbackCall
  | .request _ _ callbacks => callbacks
  | _ => []

end Event

/-- The registered classes: under each key the one of the last successful registration that no
successful deregistration has followed. -/
def registered (events : List Event) : ClassKey → Option MigrationClass :=
  events.foldl Event.update fun _ => none

end Remi
