import Remi.Server.Isolated
import Remi.Server.Sequential

/-!
# `Remi.Server.Alone`: what the world decides for one client

Conditions on how the calls of the handlers of a client end, and on what its callbacks do. The
same condition can be put on the steps of a run (`System.Outcomes`) and on the world of a
provider that serves one client (`Env.Meets`).
-/

set_option autoImplicit false

namespace Remi

open Remi.Lib

/-- The operation calls user code. -/
def Op.callsUser : Op → Bool
  | .before _ _ _ | .after _ _ _ => true
  | _ => false

section
variable (calls : SysCall → Io → Prop) (callbacks : (Fileset → Int × Fileset) → Prop)

/-- What the world decides in the operation is as `calls` and `callbacks` say, as far as the
operation asks for it. -/
def Op.Meets (o : Op) (w : Outcome) : Prop :=
  (∀ call, o.sysCall = some call → calls call w.io) ∧ (o.callsUser = true → callbacks w.callback)

/-- The condition on a step that the calls and callbacks of the client `m` are as `calls` and
`callbacks` say. -/
def System.Outcomes (m : Nat) (P : System) : Step → Prop
  | .spawn _ _ => True
  | .step t w => t.client = m → ∀ o, P.pending t = some o → o.Meets calls callbacks w

/-- All calls and callbacks are as `calls` and `callbacks` say. -/
structure Env.Meets (env : Env) : Prop where
  io : ∀ call i, calls call (env.io call i)
  callback : ∀ i fs, callbacks (env.callback i fs)

end

/-! ### A small world -/

/-- The client 0 migrates the file `/f`, and the other clients migrate none. -/
def onlyFile (m : Nat) (path : Str) : Prop := m = 0 ∧ path = ['/', 'f']

instance (m : Nat) (path : Str) : Decidable (onlyFile m path) :=
  inferInstanceAs (Decidable (_ ∧ _))

/-- A step in which a callback agrees. -/
def agreeing : Label Tid Request (Io × Uuid) → Step
  | .spawn t q => .spawn t q
  | .step t decision => .step t ⟨decision.1, decision.2, fun fileset => (0, fileset)⟩

/-- The handlers of two clients in turns. The client 1 has a fileset without files. -/
def sideBySide : List (Label Tid Request (Io × Uuid)) :=
  let turns (t t' : Tid) (n : Nat) : List (Label Tid Request (Io × Uuid)) :=
    (List.replicate n [.step t (.full, 1), .step t' (.full, 2)]).flatten
  .spawn ⟨0, 0⟩ (.start { byteByByte with root := ['/'] } [2] [0]) ::
    .spawn ⟨1, 0⟩ (.start { oneFile with root := ['/'], files := .empty } [] []) ::
    turns ⟨0, 0⟩ ⟨1, 0⟩ 6 ++ List.replicate 4 (.step ⟨0, 0⟩ (.full, 1)) ++
    .spawn ⟨0, 1⟩ (.write 1 0 0 [1]) :: .spawn ⟨1, 1⟩ (.end_ 2) ::
    turns ⟨0, 1⟩ ⟨1, 1⟩ 7 ++ .spawn ⟨0, 2⟩ (.write 1 0 1 [2]) ::
    turns ⟨0, 2⟩ ⟨1, 1⟩ 2 ++ List.replicate 5 (.step ⟨0, 2⟩ (.full, 1)) ++
    .spawn ⟨0, 3⟩ (.end_ 1) :: List.replicate 9 (.step ⟨0, 3⟩ (.full, 1))

end Remi
