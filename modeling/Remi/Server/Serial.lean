import Remi.Server.Isolated

/-!
# `Remi.Server.Serial`: clients that wait

A client may send its next request as soon as it has the answer to the one before. The handler
that has answered early can then still be at work, and two handlers of one client run at the same
time. `System.Serial` is the condition on a step of a client that waits until its earlier
handlers have returned. With it no two handlers of a client overlap, and only the handlers of
different clients are interleaved.

`Op.closing` are the operations that a handler issues behind its answer. `strict` is the
discipline of the handlers with this added to it.
-/

set_option autoImplicit false

namespace Remi

open Remi.Lib

/-- An answer is sent. -/
def Op.responds : Op → Bool
  | .respond _ => true
  | _ => false

/-- The operations behind an answer. -/
def Op.closing : Op → Bool
  | .pwrite _ _ _ _ | .abtIoPwrite _ _ _ _ | .setError _ _ | .unlock _ | .erase _ => true
  | _ => false

/-- Behind its answer a handler only writes, notes the result, and lets its record go. -/
def Ghost.AllowsBehind (g : Ghost) (o : Op) : Prop := g.answer ≠ none → o.closing = true

/-- The discipline, with what is allowed behind an answer. -/
def strict : Monitor Ans Ghost :=
  .computed (fun g o => g.Allows o ∧ g.AllowsBehind o) Ghost.after Ghost.Done

namespace System

/-- The handlers of a client before `t` have returned. -/
def Idle (P : System) (t : Tid) : Prop :=
  ∀ n < t.call, ∀ q p, P.thread ⟨t.client, n⟩ = some ⟨q, p⟩ → p = .pure ()

/-- The condition on a step that clients wait for their handlers. -/
def Serial (P : System) : Step → Prop
  | .spawn t _ => P.Idle t
  | .step _ _ => True

/-- A condition on the requests of clients that follow the protocol (`sends`), and on what the
world decides for the next operation of a handler (`decides`). -/
def Conforms (sends : Tid → Request → Prop)
    (decides : Provider → Tid → Option Op → Outcome → Prop) (P : System) : Step → Prop
  | .spawn t q => P.Permits t q ∧ sends t q
  | .step t w => decides P.shared t (P.pending t) w

/-- The handler of a request for an operation has done nothing yet, or has only found the
record. -/
def Looking (abtio : Bool) (q : Request) (p : Handler Unit) : Prop :=
  ∃ id k, handle abtio q = .op (.find id) k ∧ (p = handle abtio q ∨ p = k true)

end System

end Remi
