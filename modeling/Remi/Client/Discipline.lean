import Remi.Client.Calls

/-!
# `Remi.Client.Discipline`: what a client holds during a transfer

A `Held` is the ghost state of a transfer: the descriptors and the segments that have to be given
back, and the buffer of the request under way. `Held.Allows` says which call may be made in it.

`Call.Safe` says the same of the process itself: a call names only descriptors that are open and
segments that are mapped, a buffer stays as it is while a request sends it, and there is one
request at a time.
-/

set_option autoImplicit false

namespace Remi

open Remi.Lib

/-- What a client holds. -/
structure Held where
  fds : List SourceFd
  segments : List SourceAddr
  sending : Option Block
  /-- The descriptors of the files for which `mmap` has returned `NULL`. -/
  leaked : List SourceFd

namespace Held

/-- The client holds nothing, except for the descriptors `leaked`. -/
def nothing (leaked : List SourceFd) : Held := ⟨[], [], none, leaked⟩

/-- The call may be made. -/
def Allows (g : Held) : Call → Prop
  | .open_ _ => True
  | .fstat fd | .close fd | .mmap fd _ => fd ∈ g.fds
  | .munmap a => a ∈ g.segments
  | .expose theData => ∀ a ∈ theData, a ∈ g.segments
  | .resize b _ => g.sending ≠ some b
  | .read fd b | .pread fd b _ => fd ∈ g.fds ∧ g.sending ≠ some b
  | .migrateMmap _ localBulk => g.sending = none ∧ ∀ l, localBulk = some l →
      ∀ a ∈ l, a ∈ g.segments
  | .migrateStart _ _ _ | .migrateWrite _ _ _ _ | .migrateWriteAsync _ _ _ _ | .migrateEnd _ =>
      g.sending = none
  | .wait => g.sending ≠ none

/-- What the client holds after the call. -/
def after (g : Held) : (c : Call) → Reply c → Held
  | .open_ _, r =>
    match r with
    | some fd => { g with fds := g.fds ++ [fd] }
    | none => g
  | .close fd, _ => { g with fds := g.fds.erase fd }
  | .mmap fd _, a =>
    if a = .null then { g with fds := g.fds.erase fd, leaked := g.leaked ++ [fd] }
    else { g with segments := g.segments ++ [a] }
  | .munmap a, _ => { g with segments := g.segments.erase a }
  | .migrateWriteAsync _ _ _ b, _ => { g with sending := some b }
  | .wait, _ => { g with sending := none }
  | _, _ => g

end Held

/-- The discipline of a client. -/
def clientDiscipline : Monitor Reply Held :=
  .computed Held.Allows Held.after fun _ => True

/-! ### The process -/

/-- The segment is mapped. -/
def ClientProcess.IsMapped {σ : Type} (s : ClientProcess σ) (a : SourceAddr) : Prop :=
  s.unmaps a < s.mmaps a

/-- The buffer is not the one that a request under way sends. -/
def ClientProcess.IsFree {σ : Type} (s : ClientProcess σ) (b : Block) : Prop :=
  ∀ ret, s.pending ≠ some (b, ret)

/-- The call names nothing that has been given back, and disturbs no request under way. -/
def Call.Safe {σ : Type} (s : ClientProcess σ) : Call → Prop
  | .open_ _ => True
  | .fstat fd | .close fd | .mmap fd _ => s.isOpen fd = true
  | .munmap a => s.IsMapped a
  | .expose theData => ∀ a ∈ theData, s.IsMapped a
  | .resize b _ => s.IsFree b
  | .read fd b | .pread fd b _ => s.isOpen fd = true ∧ s.IsFree b
  | .migrateMmap _ localBulk => s.pending = none ∧ ∀ l, localBulk = some l →
      ∀ a ∈ l, s.IsMapped a
  | .migrateStart _ _ _ | .migrateWrite _ _ _ _ | .migrateWriteAsync _ _ _ _ | .migrateEnd _ =>
      s.pending = none
  | .wait => s.pending ≠ none

/-- Nothing is left to give back: each descriptor has been closed once, each segment has been
unmapped once, and no request is under way. -/
structure ClientProcess.Tidy {σ : Type} (s : ClientProcess σ) : Prop where
  isOpen : ∀ fd, s.isOpen fd = false
  closes : ∀ fd, s.closes fd = if fd < s.files.length then 1 else 0
  unmaps : ∀ n, s.unmaps (.mapped n) = if n < s.segments.length then 1 else 0
  /-- A failed mapping is unmapped too. -/
  failed : s.unmaps .failed = s.mmaps .failed
  pending : s.pending = none

end Remi
