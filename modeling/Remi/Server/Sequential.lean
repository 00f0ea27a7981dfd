import Remi.Client.Transfer
import Remi.Server.System

/-!
# `Remi.Server.Sequential`: a provider that serves one client

The provider behind the RPCs of a client, when nothing else runs on it. It serves the
requests one after the other, each handler up to its end. `providerRpc` is the `Rpc` that the
client's functions call.

The world is an `Env`. It says how the `n`-th call of each kind ends, which id the `n`-th
request would draw, and what the `n`-th call of a user callback returns and does to its
fileset. A callback may look at the provider's files.
-/

set_option autoImplicit false

namespace Remi

open Remi.Lib

/-- The calls of a provider that the operating system may let fail. -/
inductive SysCall where
  | access
  | mkdir
  | open_
  | ftruncate
  | mmap
  | pull
  | msync
  | pwrite
deriving DecidableEq

/-- The call that an operation makes. -/
def Op.sysCall : Op → Option SysCall
  | .access _ => some .access
  | .mkdir _ => some .mkdir
  | .openTrunc _ _ => some .open_
  | .ftruncate _ _ _ => some .ftruncate
  | .mmap _ _ _ => some .mmap
  | .pull _ _ => some .pull
  | .msync _ => some .msync
  | .pwrite _ _ _ _ => some .pwrite
  | .abtIoPwrite _ _ _ _ => some .pwrite
  | _ => none

/-- What the world decides for a provider. -/
structure Env where
  io : SysCall → Nat → Io
  uuid : Nat → Uuid
  callback : Nat → Fs → Fileset → Int × Fileset

/-- A provider, with the numbers of the requests it has had and of the calls it has made. -/
structure Site where
  provider : Provider
  served : Nat
  made : SysCall → Nat

namespace Env

/-- What the world decides in the next operation. -/
def outcome (env : Env) (s : Site) (o : Op) : Outcome where
  io :=
    match o.sysCall with
    | some call => env.io call (s.made call)
    | none => .full
  uuid := env.uuid s.served
  callback := env.callback s.provider.calls s.provider.fs

/-- One operation of the handler `t`. -/
def step (env : Env) (t : Tid) (o : Op) (s : Site) : Option (Ans o × Site) :=
  (exec t (env.outcome s o) o s.provider).map fun rs =>
    (rs.1,
      { s with
        provider := rs.2
        made :=
          match o.sysCall with
          | some call => Function.update s.made call (s.made call + 1)
          | none => s.made })

end Env

namespace Site

/-- The handler of the next request. -/
def tid (s : Site) : Tid := ⟨0, s.served⟩

/-- The next request has come in, and has not been answered. -/
def receive (s : Site) : Site :=
  { s with
    provider :=
      { s.provider with responses := Function.update s.provider.responses s.tid none } }

end Site

/-- The answer to a request, with the provider after it. A handler that does not go on keeps
the provider as it has left it. -/
def Env.serve (env : Env) (abtio : Bool) (q : Request) (s : Site) : Option Response × Site :=
  let s' := ((handle abtio q).run (env.step s.tid) s.receive).2
  (s'.provider.responses s.tid, { s' with served := s.served + 1 })

/-- The provider after requests that it serves one after the other. -/
def Env.serveAll (env : Env) (abtio : Bool) : List Request → Site → Site
  | [], s => s
  | q :: rest, s => env.serveAll abtio rest (env.serve abtio q s).2

/-- The RPCs of a provider that serves one client. A request without an answer of its kind
fails. -/
def providerRpc (env : Env) (abtio : Bool) : Rpc Site where
  start fileset theSizes theModes s :=
    match env.serve abtio (.start fileset theSizes theModes) s with
    | (some (.start ret status operationId), s') => ((ret, status, operationId), s')
    | (_, s') => ((.errMercury, 0, 0), s')
  mmap operationId remoteBulk s :=
    match env.serve abtio (.mmap operationId remoteBulk) s with
    | (some (.mmap ret), s') => (ret, s')
    | (_, s') => (.errMercury, s')
  write operationId fileNumber writeOffset data s :=
    match env.serve abtio (.write operationId fileNumber writeOffset data) s with
    | (some (.write ret), s') => (ret, s')
    | (_, s') => (.errMercury, s')
  end_ operationId s :=
    match env.serve abtio (.end_ operationId) s with
    | (some (.end_ ret status), s') => ((ret, status), s')
    | (_, s') => ((.errMercury, 0), s')

/-! ### A small world -/

/-- A provider before its first request. -/
def Site.init (classes : ClassKey → Option MigrationClass) (fs : Fs) : Site :=
  ⟨.init classes fs, 0, fun _ => 0⟩

/-- All calls do what they are asked to, and callbacks agree. -/
def Env.succeed : Env := ⟨fun _ _ => .full, id, fun _ _ fileset => (0, fileset)⟩

def ClientIo.succeed : ClientIo :=
  ⟨fun _ => false, fun _ => false, fun _ => false, fun _ _ => .full⟩

/-- The directory `/a` with the file `f` of two bytes. -/
def smallTree : SourceTree where
  entries := [⟨[['a']], .dir 0, 0, true⟩, ⟨[['a'], ['f']], .file ⟨[1, 2], by decide⟩, 0, true⟩]
  names := by decide
  nodup := by decide
  parents := by decide

theorem oneByte_small : ([1] : Bytes).length < offsetBound := by decide

theorem twoBytes_small : ([1, 2] : Bytes).length < offsetBound := by decide

/-- The file `/a/f`, sent byte by byte. -/
def byteByByte : Fileset := { oneFile with xferSize := ⟨1, by decide⟩ }

end Remi
