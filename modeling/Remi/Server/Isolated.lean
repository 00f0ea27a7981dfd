import Remi.Server.System
import Remi.Lib.Isolation

/-!
# `Remi.Server.Isolated`: migrations that keep apart

Many clients migrate to one provider at the same time. Each has target paths of its own, and
`Apart` says when they do not meet those of another client. `System.Separated` is the condition
on a step of such clients: they follow the protocol, their classes are registered, their
callbacks leave them within their targets, and the ids that are drawn are fresh.
-/

set_option autoImplicit false

namespace Remi

open Remi.Lib

/-- `dir` is a directory prefix of `path`: a slash follows it. -/
def DirPrefix (dir path : Str) : Prop := ∃ rest, path = dir ++ '/' :: rest

/-- The targets of two clients are distinct, and none is a directory prefix of another. -/
def Apart (cwd : Path) (targets : Nat → Str → Prop) : Prop :=
  ∀ m m' path path', m ≠ m' → targets m path → targets m' path' →
    place cwd path ≠ place cwd path' ∧
      ∀ dir, DirPrefix dir path → place cwd dir ≠ place cwd path'

namespace System

/-- The operation that a handler is about to do. -/
def pending (P : System) (t : Tid) : Option Op :=
  match P.thread t with
  | some ⟨_, .op o _⟩ => some o
  | _ => none

/-- A request is one of the protocol. The class of a fileset is registered, and its files are
targets of the client. -/
def Sends (classes : ClassKey → Option MigrationClass) (targets : Nat → Str → Prop)
    (P : System) (t : Tid) (q : Request) : Prop :=
  P.Permits t q ∧
    match q with
    | .start fileset _ _ => classes (classKey fileset) ≠ none ∧
        ∀ path ∈ fileset.fullNames, targets t.client path
    | _ => True

/-- What the world decides in a step: an id that is drawn is fresh, and a "before" callback
leaves a fileset whose files are targets of the client. -/
def Decides (targets : Nat → Str → Prop) (P : System) (t : Tid) (w : Outcome) : Prop :=
  match P.pending t with
  | some .newUuid => P.shared.issuedTo w.uuid = none
  | some (.before _ _ fileset) => ∀ path ∈ (w.callback fileset).2.fullNames, targets t.client path
  | _ => True

/-- The condition on a step of clients with targets of their own. -/
def Separated (classes : ClassKey → Option MigrationClass) (targets : Nat → Str → Prop)
    (P : System) : Step → Prop
  | .spawn t q => P.Sends classes targets t q
  | .step t w => P.Decides targets t w

section
variable (classes : ClassKey → Option MigrationClass) (targets : Nat → Str → Prop)
  [∀ m path, Decidable (targets m path)]

instance (P : System) (t : Tid) (q : Request) : Decidable (P.Sends classes targets t q) := by
  unfold Sends
  cases q <;> infer_instance

instance (P : System) (t : Tid) (w : Outcome) : Decidable (P.Decides targets t w) := by
  unfold Decides
  split <;> infer_instance

instance (P : System) (l : Step) : Decidable (P.Separated classes targets l) := by
  unfold Separated
  cases l <;> infer_instance

end

end System

end Remi
