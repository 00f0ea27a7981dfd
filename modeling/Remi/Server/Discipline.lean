import Remi.Server.Handlers

/-!
# `Remi.Server.Discipline`: what a handler may do, and when

The handlers share the operation records, so the order in which each of them touches a
record matters. `discipline` is a monitor that says this order for all four handlers at
once: a record is accessed only after it has been looked up, an early answer of
`migrate_write` is given under the record's mutex and followed by exactly one write, the
"after" callback runs only once the error has been tested, and so on. `Ghost` is what the
monitor remembers of a handler.

Every proof about interleavings uses the handlers only through `handle_follows`, which says
that they follow the discipline.
-/

set_option autoImplicit false

namespace Remi

open Remi.Lib

/-- The operation id a request names. -/
def Request.target : Request → Option Uuid
  | .start _ _ _ => none
  | .mmap id _ => some id
  | .write id _ _ _ => some id
  | .end_ id => some id

/-- The four RPCs. -/
inductive Kind where
  | start
  | mmap
  | write
  | end_
deriving DecidableEq

def Request.kind : Request → Kind
  | .start _ _ _ => .start
  | .mmap _ _ => .mmap
  | .write _ _ _ _ => .write
  | .end_ _ => .end_

/-- The record an operation goes through a pointer to. -/
def Op.accesses : Op → Option Uuid
  | .lock id => some id
  | .unlock id => some id
  | .load id => some id
  | .filesizeAt id _ => some id
  | .setError id _ => some id
  | .closeFds id => some id
  | .after id _ _ => some id
  | .ftruncate id _ _ => some id
  | .mmap id _ _ => some id
  | .pwrite id _ _ _ => some id
  | .abtIoPwrite id _ _ _ => some id
  | _ => none

/-- What is remembered of a handler. -/
structure Ghost where
  req : Request
  /-- The id a `migrate_start` has drawn. -/
  drawn : Option Uuid := none
  /-- The descriptors a `migrate_start` has opened, and neither closed nor handed over. -/
  mine : List Fd := []
  /-- The record has been put into the map. -/
  stored : Bool := false
  /-- The record that has been looked up. -/
  found : Option Uuid := none
  /-- There was no record when it was looked up. -/
  missed : Bool := false
  /-- The handler holds the mutex of the record. -/
  locked : Bool := false
  /-- The descriptors of the record, from the last look at it. -/
  fds : List Fd := []
  /-- What the `mmap` calls of a `migrate_mmap` have returned, and `munmap` has not had. -/
  maps : List Addr := []
  /-- The size that a `migrate_mmap` has to transfer, once it has looked at the record. -/
  total : Option Nat := none
  /-- A `migrate_mmap` has seen a call fail, or a transfer that was not total. -/
  failed : Bool := false
  /-- A `migrate_end` has closed the descriptors. -/
  closed : Bool := false
  /-- The value of `m_error` when a `migrate_end` tested it. -/
  seen : Option Ret := none
  /-- The "after" callback has been called. -/
  called : Bool := false
  erased : Bool := false
  answer : Option Response := none
  /-- A `migrate_write` has written its chunk. -/
  written : Bool := false
  /-- That write was short, and this is not in the record yet. -/
  unrecorded : Bool := false

namespace Ghost

/-- The operation may be the next one. -/
def Allows (g : Ghost) : Op → Prop
  | .newUuid => g.req.kind = .start ∧ g.drawn = none
  | .classCount _ | .access _ | .mkdir _ | .openTrunc _ _ | .vecAt _ _ | .before _ _ _ =>
      g.req.kind = .start ∧ g.stored = false ∧ g.drawn ≠ none
  -- Only a `migrate_start` that gives up closes a descriptor that is its own.
  | .close fd => g.req.kind = .start ∧ g.mine.head? = some fd
  -- The record takes over the descriptors. Nobody knows its id before the answer.
  | .insert id op => g.req.kind = .start ∧ g.drawn = some id ∧ g.stored = false ∧
      g.answer = none ∧ op.error = .success ∧ op.mutex = none ∧ op.closedBy = none ∧
      op.fds = g.mine
  | .classAt _ => g.req.kind = .start ∨ g.req.kind = .end_
  -- One look at the map, for the id that the request names.
  | .find id => g.req.target = some id ∧ g.found = none ∧ g.closed = false ∧ g.answer = none ∧
      g.missed = false
  -- `migrate_mmap` does not lock the record.
  | .lock id => g.found = some id ∧ g.req.kind ≠ .mmap ∧ g.locked = false ∧
      g.closed = false ∧ g.answer = none ∧ g.erased = false
  -- The answer is given before the mutex is released, and a write that has been announced has
  -- happened. A failure of it is in the record by then.
  | .unlock id => g.found = some id ∧ g.locked ∧ g.answer ≠ none ∧ g.unrecorded = false ∧
      (g.answer = some (.write .success) → g.written)
  -- A `migrate_end` looks at the record when the descriptors are closed.
  | .load id => g.found = some id ∧ (g.req.kind = .mmap ∨ g.locked) ∧ g.answer = none ∧
      g.erased = false ∧ (g.req.kind = .end_ → g.closed)
  | .filesizeAt id _ => g.found = some id ∧ (g.req.kind = .mmap ∨ g.locked) ∧ g.answer = none ∧
      g.erased = false
  | .setError id e => g.found = some id ∧ g.req.kind = .write ∧ g.locked ∧ g.unrecorded ∧
      g.answer = some (.write .success) ∧ g.erased = false ∧ e = .errIo
  | .closeFds id => g.found = some id ∧ g.req.kind = .end_ ∧ g.locked ∧ g.closed = false ∧
      g.answer = none ∧ g.erased = false
  -- The callback runs only when the error has been tested and was none.
  | .after id _ _ => g.found = some id ∧ g.req.kind = .end_ ∧ g.locked ∧ g.closed ∧
      g.seen = some .success ∧ g.called = false ∧ g.answer = none ∧ g.erased = false
  | .ftruncate id fd _ | .mmap id fd _ => g.found = some id ∧ g.req.kind = .mmap ∧ fd ∈ g.fds ∧
      g.answer = none ∧ g.erased = false
  -- The write comes after its answer.
  | .pwrite id fd _ _ | .abtIoPwrite id fd _ _ => g.found = some id ∧ g.req.kind = .write ∧
      g.locked ∧ fd ∈ g.fds ∧ g.answer = some (.write .success) ∧ g.written = false ∧
      g.erased = false
  -- A refused write, a failed transfer, or the end of the migration.
  | .erase id => g.found = some id ∧ g.erased = false ∧
      (g.req.kind = .write ∧ g.locked ∧ g.answer = none ∨
        g.req.kind = .mmap ∧ g.failed ∧ g.answer = none ∨
        g.req.kind = .end_ ∧ g.closed ∧ g.answer ≠ none)
  | .munmap a => g.req.kind = .mmap ∧ g.erased = false ∧ g.maps.head? = some a
  -- All that is mapped takes part in the transfer.
  | .expose segs | .pull _ segs => g.req.kind = .mmap ∧ g.erased = false ∧
      segs.map Prod.fst = g.maps ∧ g.found ≠ none ∧ g.total ≠ none
  | .msync a => g.req.kind = .mmap ∧ g.erased = false ∧ a ∈ g.maps ∧ g.found ≠ none
  | .respond (.start ret _ id) => g.req.kind = .start ∧ g.answer = none ∧ g.drawn = some id ∧
      g.mine = [] ∧ (ret = .success ↔ g.stored)
  | .respond (.mmap ret) => g.req.kind = .mmap ∧ g.answer = none ∧
      (ret = .success ∧ g.found ≠ none ∧ g.erased = false ∧ g.maps = [] ∨
        ret = .errInvalidOpid ∧ g.missed ∧ g.maps = [] ∨
        ret = .errIo ∧ g.failed ∧ g.erased ∧ g.maps = [] ∨
        -- The exit for a short transfer unmaps nothing and keeps the record.
        ret = .errMigration ∧ g.failed ∧ g.erased = false)
  | .respond (.write ret) => g.req.kind = .write ∧ g.answer = none ∧
      (ret = .success ∧ g.found ≠ none ∧ g.locked ∧ g.erased = false ∨
        ret = .errInvalidOpid ∧ g.missed ∨ ret = .errIo ∧ g.erased)
  | .respond (.end_ ret _) => g.req.kind = .end_ ∧ g.answer = none ∧ g.erased = false ∧
      ((g.missed ∧ ret = .errInvalidOpid) ∨ (g.found ≠ none ∧ g.locked ∧ g.closed ∧
        (g.seen = some ret ∨ g.seen = some .success)))

/-- The memory after an answer. -/
def after (g : Ghost) : (o : Op) → Ans o → Ghost
  | .newUuid, id => { g with drawn := some id }
  | .openTrunc _ _, r => { g with mine := g.mine ++ r.toList }
  | .close _, _ => { g with mine := g.mine.tail }
  | .insert _ _, _ => { g with stored := true, mine := [] }
  | .find id, r => { g with found := if r then some id else none, missed := !r }
  | .lock _, _ => { g with locked := true }
  | .unlock _, _ => { g with locked := false }
  | .load _, op =>
    { g with
      fds := op.fds
      total := some (op.filesizes.sum % sizeModulus)
      -- The first look of a `migrate_end` is the test of the error.
      seen := if g.req.kind = .end_ ∧ g.seen = none then some op.error else g.seen }
  | .setError _ _, _ => { g with unrecorded := false }
  | .closeFds _, _ => { g with closed := true }
  | .ftruncate _ _ _, r => { g with failed := !r || g.failed }
  | .mmap _ _ _, a =>
    { g with
      failed := decide (a = .null) || g.failed
      maps := if a = .null then g.maps else g.maps ++ [a] }
  | .pull _ _, n => { g with failed := decide (g.total ≠ some (n % sizeModulus)) || g.failed }
  | .msync _, r => { g with failed := !r || g.failed }
  | .munmap _, _ => { g with maps := g.maps.tail }
  | .after _ _ _, _ => { g with called := true }
  | .pwrite _ _ data _, n => { g with written := true, unrecorded := n ≠ data.length }
  | .abtIoPwrite _ _ data _, n => { g with written := true, unrecorded := n ≠ data.length }
  | .erase _, _ => { g with erased := true }
  | .respond r, _ => { g with answer := some r }
  | _, _ => g

/-- A handler may return: it has answered, and a `migrate_end` has erased its record. -/
def Done (g : Ghost) : Prop :=
  g.answer ≠ none ∧ g.locked = false ∧ g.mine = [] ∧
    (g.req.kind = .end_ → g.missed ∨ g.erased)

end Ghost

/-- The order in which a handler does its operations. -/
def discipline : Monitor Ans Ghost := .computed Ghost.Allows Ghost.after Ghost.Done

end Remi
