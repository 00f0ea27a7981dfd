import Remi.Client.Transfer
import Remi.Server.System

/-!
# `Remi.Server.Interleaved`: a client of a provider with many handlers

The provider behind the RPCs of one client, while any other handlers run on it. The client `m`
sends its requests one after the other. Behind its request number `n` the steps `schedule n`
are taken before the client goes on. They can be steps of the handler of the request, of those
of earlier requests, and of other clients, in any order.

A request is not answered when its schedule cannot be followed, or ends before the answer.
-/

set_option autoImplicit false

namespace Remi

open Remi.Lib

/-- A provider, and the number of requests that its client has sent. -/
structure Session where
  system : System
  sent : Nat

/-- The request of the client `m`, with the steps behind it. The answer is the one that is there
after them. -/
def Session.send (abtio : Bool) (m : Nat) (schedule : Nat → List Step) (q : Request)
    (s : Session) : Option Response × Session :=
  match follow (System.next abtio) (fun _ _ => True) (.spawn ⟨m, s.sent⟩ q :: schedule s.sent)
      s.system with
  | some P => (P.shared.responses ⟨m, s.sent⟩, ⟨P, s.sent + 1⟩)
  | none => (none, ⟨s.system, s.sent + 1⟩)

/-- The RPCs of the client `m`. A request without an answer of its kind fails. -/
def systemRpc (abtio : Bool) (m : Nat) (schedule : Nat → List Step) : Rpc Session where
  start fileset theSizes theModes s :=
    match s.send abtio m schedule (.start fileset theSizes theModes) with
    | (some (.start ret status operationId), s') => ((ret, status, operationId), s')
    | (_, s') => ((.errMercury, 0, 0), s')
  mmap operationId remoteBulk s :=
    match s.send abtio m schedule (.mmap operationId remoteBulk) with
    | (some (.mmap ret), s') => (ret, s')
    | (_, s') => (.errMercury, s')
  write operationId fileNumber writeOffset data s :=
    match s.send abtio m schedule (.write operationId fileNumber writeOffset data) with
    | (some (.write ret), s') => (ret, s')
    | (_, s') => (.errMercury, s')
  end_ operationId s :=
    match s.send abtio m schedule (.end_ operationId) with
    | (some (.end_ ret status), s') => ((ret, status), s')
    | (_, s') => ((.errMercury, 0), s')

end Remi
