import Remi.Server.Discipline

/-!
# `Remi.Server.System`: a provider with many handlers

The provider with all the handlers that run on it, at any point of their programs. A label
either delivers a request, which starts a handler, or lets one handler do its next
operation, with what the world decides in it.
-/

set_option autoImplicit false

namespace Remi

open Remi.Lib

/-- A provider with classes and files, before the first request. -/
def Provider.init (classes : ClassKey → Option MigrationClass) (fs : Fs) : Provider where
  classes := classes
  opInProgress _ := none
  fs := fs
  descriptors _ := none
  isOpen _ := false
  opened _ := 0
  segments _ := none
  mapped _ := 0
  issuedTo _ := none
  calls := 0
  responses _ := none
  closes _ := 0
  exposes _ := 0
  syncs _ := 0
  unmaps _ := 0
  mapFailures _ := 0
  overwritten := []
  callbacks := []
  writes := []
  outOfBounds := 0

/-- A provider and its handlers. -/
abbrev System := Pool Tid Request Provider Ans

/-- A step of a provider. -/
abbrev Step := Label Tid Request Outcome

/-- A call of an "after" callback for the operation `id`. -/
def CallbackCall.isAfter (id : Uuid) : CallbackCall → Bool
  | .after _ operationId _ _ _ => operationId = id
  | .before _ _ _ _ => false

/-- The number of "after" callbacks run for the operation `id`. -/
def Provider.afterCalls (s : Provider) (id : Uuid) : Nat := s.callbacks.countP (·.isAfter id)

namespace System

/-- The system before the first request. -/
def init (classes : ClassKey → Option MigrationClass) (fs : Fs) : System where
  shared := .init classes fs
  thread _ := none

/-- One step of the system. -/
def next (abtio : Bool) : System → Step → Option System :=
  Pool.next (handle abtio) exec

/-- The states that steps within the condition `C` lead to. -/
abbrev Reaches (abtio : Bool) (C : System → Step → Prop) (P₀ : System) :
    List Step → System → Prop :=
  Run (next abtio) C P₀

/-! ### Clients that follow the protocol -/

/-- The client `m` has had its first `n` requests after `migrate_start` answered, each of
them a write that has succeeded. -/
def Written (P : System) (m n : Nat) : Prop :=
  ∀ j < n, P.shared.responses ⟨m, j + 1⟩ = some (.write .success)

/-- The next request of a client: `migrate_start` first, then writes or one `migrate_mmap`,
then `migrate_end`. Each names the operation that `migrate_start` has answered, and is sent
when the one before it has been answered with success. -/
def Permits (P : System) (t : Tid) (q : Request) : Prop :=
  match t.call with
  | 0 => q.kind = .start
  | n + 1 => ∃ status id, P.shared.responses ⟨t.client, 0⟩ = some (.start .success status id) ∧
      -- The id is the one from the answer to this client's own `migrate_start`.
      q.target = some id ∧
      (q.kind = .write ∧ P.Written t.client n ∨
        q.kind = .mmap ∧ n = 0 ∨
        q.kind = .end_ ∧ (P.Written t.client n ∨
          n = 1 ∧ P.shared.responses ⟨t.client, 1⟩ = some (.mmap .success)))

/-- The condition on a step that clients follow the protocol. -/
def Protocol (P : System) : Step → Prop
  | .spawn t q => P.Permits t q
  | .step _ _ => True

instance (P : System) (m n : Nat) : Decidable (P.Written m n) := by
  unfold Written
  infer_instance

instance (P : System) (t : Tid) (q : Request) : Decidable (P.Permits t q) :=
  match t with
  | ⟨_, 0⟩ => inferInstanceAs (Decidable (q.kind = .start))
  | ⟨m, n + 1⟩ =>
    match h : P.shared.responses ⟨m, 0⟩ with
    | some (.start ret status id) =>
      decidable_of_iff (ret = .success ∧ q.target = some id ∧
          (q.kind = .write ∧ P.Written m n ∨ q.kind = .mmap ∧ n = 0 ∨
            q.kind = .end_ ∧ (P.Written m n ∨
              n = 1 ∧ P.shared.responses ⟨m, 1⟩ = some (.mmap .success)))) (by
        simp [Permits, h])
    | none | some (.mmap _) | some (.write _) | some (.end_ _ _) =>
      .isFalse (by simp [Permits, h])

instance (P : System) (l : Step) : Decidable (P.Protocol l) :=
  match l with
  | .spawn t q => inferInstanceAs (Decidable (P.Permits t q))
  | .step _ _ => .isTrue trivial

end System

/-! ### A small world -/

/-- Callbacks and calls that succeed, with `uuid` as the id that is drawn. -/
def Outcome.succeed (uuid : Uuid) : Outcome := ⟨.full, uuid, fun fileset => (0, fileset)⟩

/-- A fileset with one file. -/
def oneFile : Fileset :=
  ⟨['c'], 0, ['/', 'a', '/'], .empty, SortedSet.empty.insert ['f'], .empty, defaultXferSize⟩

/-- Every class is registered, with a "before" callback only. -/
def acceptAll : ClassKey → Option MigrationClass := fun _ => some ⟨some 0, none, none, none⟩

end Remi
