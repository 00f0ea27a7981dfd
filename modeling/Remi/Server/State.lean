import Remi.Fileset
import Remi.Io
import Remi.Lib.Threads

/-!
# `Remi.Server.State`: a provider and the operations of its handlers

The data of `remi-server.cpp` and of the system it runs on, and the meaning of the
operations the RPC handlers are made of. `exec t w o s` is one operation `o` of the handler
`t` in the state `s`, where the world decides `w`. The answer `none` means that the handler
does not go on: it waits for a mutex, or the call it makes throws or is undefined.

An operation record is reached through a raw pointer that stays with the handler after the
map's mutex is released. The model keeps the operation id for it. A handler that reads or
locks a record that has left the map uses a pointer to freed memory, and does not go on. A
release of a freed record's mutex has no effect on any other record, and the handler goes
on: it is the last thing it does.

The fields of `Provider` below `responses` are history variables. They record what has
happened, and no answer depends on them.
-/

set_option autoImplicit false

namespace Remi

open Remi.Lib

/-- A handler: the `call`-th request of a client. -/
structure Tid where
  client : Nat
  call : Nat
deriving DecidableEq, Repr

/-- An operation id, drawn by `uuid_generate`. -/
abbrev Uuid := Nat

/-- A descriptor: the `index`-th one that a handler has opened. Numbers the kernel gives
out again after a close are different descriptors here. -/
structure Fd where
  owner : Tid
  index : Nat
deriving DecidableEq, Repr

/-- A segment: the `index`-th one that a handler has mapped. -/
structure Seg where
  owner : Tid
  index : Nat
deriving DecidableEq, Repr

/-- What `mmap` returns. The failure value is not the null pointer. -/
inductive Mapping (α : Type) where
  | null
  | failed
  | mapped (a : α)
deriving DecidableEq, Repr

/-- An address in the memory of the provider. -/
abbrev Addr := Mapping Seg

/-- `struct class_key`. -/
structure ClassKey where
  name : Str
  providerId : UInt16
deriving DecidableEq

/-- `struct migration_class`: two callbacks, the function that frees their argument, and
the argument. Pointers to user code and data are numbers, and `none` is a null pointer. -/
structure MigrationClass where
  beforeCallback : Option Nat
  afterCallback : Option Nat
  free : Option Nat
  uargs : Option Nat
deriving DecidableEq

/-- The class that `operator[]` inserts for a missing key. -/
def MigrationClass.null : MigrationClass := ⟨none, none, none, none⟩

/-- `struct operation`. -/
structure Operation where
  fileset : Fileset
  filesizes : List Nat
  modes : List Nat
  fds : List Fd
  error : Ret := .success
  /-- `m_mutex`: the handler that holds it. -/
  mutex : Option Tid := none
  /-- History: the handler that closed the descriptors. -/
  closedBy : Option Tid := none
deriving DecidableEq

/-- The answer to an RPC. -/
inductive Response where
  | start (ret : Ret) (status : Int) (operationId : Uuid)
  | mmap (ret : Ret)
  | write (ret : Ret)
  | end_ (ret : Ret) (status : Int)
deriving DecidableEq

/-- The return code of an answer. -/
def Response.ret : Response → Ret
  | .start r _ _ => r
  | .mmap r => r
  | .write r => r
  | .end_ r _ => r

/-- The segments behind a client's bulk handle. A mapped one stands for its bytes. -/
abbrev Bulk := List (Mapping Bytes)

/-- An RPC request. A null bulk handle is `none`. -/
inductive Request where
  | start (fileset : Fileset) (filesizes theModes : List Nat)
  | mmap (operationId : Uuid) (remoteBulk : Option Bulk)
  | write (operationId : Uuid) (fileNumber writeOffset : Nat) (data : Bytes)
  | end_ (operationId : Uuid)
deriving DecidableEq

/-- History of the calls of user callbacks. -/
inductive CallbackCall where
  | before (t : Tid) (callback : Nat) (uargs : Option Nat) (fileset : Fileset)
  | after (t : Tid) (operationId : Uuid) (callback : Nat) (uargs : Option Nat)
      (fileset : Fileset)
deriving DecidableEq

/-- History of the writes: `pwrite` was asked for `requested` bytes and returned
`result`. -/
structure WriteCall where
  t : Tid
  operationId : Uuid
  fd : Fd
  offset : Nat
  requested : Nat
  result : Int
deriving DecidableEq

/-- A provider, with the file system and the kernel tables of its process. -/
structure Provider where
  /-- `m_migration_classes` -/
  classes : ClassKey → Option MigrationClass
  opInProgress : Uuid → Option Operation
  fs : Fs
  /-- The place of the file a descriptor has been opened for. -/
  descriptors : Fd → Option Path
  /-- The descriptor has been opened and not been closed since. -/
  isOpen : Fd → Bool
  /-- The number of descriptors a handler has opened. -/
  opened : Tid → Nat
  /-- The place of the file a segment is a mapping of. -/
  segments : Seg → Option Path
  /-- The number of segments a handler has mapped. -/
  mapped : Tid → Nat
  /-- The handler that has drawn an id. -/
  issuedTo : Uuid → Option Tid
  /-- The number of callback calls so far. -/
  calls : Nat
  /-- The answers sent. -/
  responses : Tid → Option Response
  closes : Fd → Nat
  exposes : Addr → Nat
  syncs : Addr → Nat
  unmaps : Addr → Nat
  /-- The calls of `mmap` that have failed. -/
  mapFailures : Tid → Nat
  /-- Files that existed when they were opened with `O_TRUNC`. -/
  overwritten : List Path
  callbacks : List CallbackCall
  writes : List WriteCall
  /-- The vector accesses at or past the end. -/
  outOfBounds : Nat

/-- What the world decides in one operation: how a system call ends, the id
`uuid_generate` draws, and what a user callback returns and does to its fileset. -/
structure Outcome where
  io : Io
  uuid : Uuid
  callback : Fileset → Int × Fileset

/-- The operations handlers are made of. The ones that work on an operation record, or
on a descriptor of it, name its id. -/
inductive Op where
  | newUuid
  | classCount (key : ClassKey)
  | classAt (key : ClassKey)
  | access (path : Str)
  | mkdir (path : Str)
  | openTrunc (path : Str) (mode : Nat)
  | close (fd : Fd)
  | vecAt (v : List Nat) (i : Nat)
  | filesizeAt (id : Uuid) (i : Nat)
  | before (callback : Nat) (uargs : Option Nat) (fileset : Fileset)
  | insert (id : Uuid) (op : Operation)
  | find (id : Uuid)
  | erase (id : Uuid)
  | lock (id : Uuid)
  | unlock (id : Uuid)
  | load (id : Uuid)
  | setError (id : Uuid) (error : Ret)
  | closeFds (id : Uuid)
  | after (id : Uuid) (callback : Nat) (uargs : Option Nat)
  | ftruncate (id : Uuid) (fd : Fd) (size : Nat)
  | mmap (id : Uuid) (fd : Fd) (size : Nat)
  | munmap (a : Addr)
  | expose (segs : List (Addr × Nat))
  | pull (remote : Option Bulk) (segs : List (Addr × Nat))
  | msync (a : Addr)
  | pwrite (id : Uuid) (fd : Fd) (data : Bytes) (offset : Nat)
  | abtIoPwrite (id : Uuid) (fd : Fd) (data : Bytes) (offset : Nat)
  | respond (r : Response)

/-- The type of the answers to an operation. -/
@[reducible] def Ans : Op → Type
  | .newUuid => Uuid
  | .classCount _ => Bool
  | .classAt _ => MigrationClass
  | .access _ => Bool
  | .mkdir _ => Unit
  | .openTrunc _ _ => Option Fd
  | .close _ => Unit
  | .vecAt _ _ => Nat
  | .filesizeAt _ _ => Nat
  | .before _ _ _ => Int × Fileset
  | .insert _ _ => Unit
  | .find _ => Bool
  | .erase _ => Unit
  | .lock _ => Unit
  | .unlock _ => Unit
  | .load _ => Operation
  | .setError _ _ => Unit
  | .closeFds _ => Unit
  | .after _ _ _ => Int
  | .ftruncate _ _ _ => Bool
  | .mmap _ _ _ => Addr
  | .munmap _ => Unit
  | .expose _ => Unit
  | .pull _ _ => Nat
  | .msync _ => Bool
  | .pwrite _ _ _ _ => Int
  | .abtIoPwrite _ _ _ _ => Int
  | .respond _ => Unit

/-! ### The bulk transfer -/

def Mapping.isMapped {α : Type} : Mapping α → Bool
  | .mapped _ => true
  | _ => false

/-- The concatenation of the segments a client exposes. -/
def Bulk.bytes : Bulk → Bytes
  | [] => []
  | .mapped b :: rest => b ++ Bulk.bytes rest
  | _ :: rest => Bulk.bytes rest

/-- The room in the segments of a provider. -/
def segsRoom (segs : List (Addr × Nat)) : Nat := (segs.map Prod.snd).sum

/-- `data` copied into the segments, one after the other, each a mapping of a file. A write
through a mapping does not extend the file. -/
def scatter (segments : Seg → Option Path) : List (Addr × Nat) → Bytes → Fs → Fs
  | [], _, fs => fs
  | (a, size) :: rest, data, fs =>
    scatter segments rest (data.drop size)
      (match a with
      | .mapped seg =>
        match segments seg with
        | some p => fs.modifyFile p fun b => overlay 0 b 0 ((data.take size).take b.length)
        | none => fs
      | _ => fs)

namespace Provider

/-- `close` on each of the descriptors. -/
def closeAll (s : Provider) (fds : List Fd) : Provider :=
  { s with
    isOpen := fun fd => s.isOpen fd && fd ∉ fds
    closes := fun fd => s.closes fd + fds.count fd }

/-- The record of `id` changed by `f`. -/
def modifyOp (s : Provider) (id : Uuid) (op : Operation) : Provider :=
  { s with opInProgress := Function.update s.opInProgress id (some op) }

/-- A failure of `mmap` in the handler `t`. -/
def mapFailure (s : Provider) (t : Tid) : Provider :=
  { s with mapFailures := Function.update s.mapFailures t (s.mapFailures t + 1) }

/-- A positioned write of the handler `t` for the operation `id`. An offset that is
negative as an `off_t` makes the call fail. -/
def write (t : Tid) (io : Io) (id : Uuid) (fd : Fd) (data : Bytes) (offset : Nat)
    (s : Provider) : Int × Provider :=
  let log (result : Int) : List WriteCall :=
    ⟨t, id, fd, offset, data.length, result⟩ :: s.writes
  match io.count data.length, s.descriptors fd with
  | some n, some p =>
    if offset < offsetBound ∧ s.isOpen fd then
      (n, { s with
        fs := s.fs.modifyFile p fun b => overlay 0 b offset (data.take n)
        writes := log n })
    else (-1, { s with writes := log (-1) })
  | _, _ => (-1, { s with writes := log (-1) })

end Provider

open Provider in
/-- One operation of the handler `t`. -/
def exec (t : Tid) (w : Outcome) : (o : Op) → Provider → Option (Ans o × Provider)
  | .newUuid, s =>
    -- An id is random. One that has been drawn is not drawn again.
    match s.issuedTo w.uuid with
    | none => some (w.uuid, { s with issuedTo := Function.update s.issuedTo w.uuid (some t) })
    | some _ => none
  | .classCount key, s => some ((s.classes key).isSome, s)
  | .classAt key, s =>
    match s.classes key with
    | some c => some (c, s)
    -- `operator[]` inserts a class of null pointers for a key that is missing.
    | none => some (.null, { s with classes := Function.update s.classes key (some .null) })
  | .access path, s =>
    -- A path that cannot be followed is reported like one that names nothing.
    some (decide (w.io ≠ .fail ∧ (s.fs.node (s.fs.place path)).isSome), s)
  | .mkdir path, s =>
    -- The result is not looked at. Where there is something already, nothing changes.
    if w.io ≠ .fail ∧ s.fs.node (s.fs.place path) = none then
      some ((), { s with fs := s.fs.put (s.fs.place path) .dir })
    else some ((), s)
  | .openTrunc path _, s =>
    let p := s.fs.place path
    -- `O_CREAT` creates the file, and `O_TRUNC` empties one that is there. A directory cannot be
    -- opened for writing.
    if w.io = .fail ∨ s.fs.node p = some .dir then some (none, s)
    else some (some ⟨t, s.opened t⟩,
      { s with
        fs := s.fs.put p (.file [])
        descriptors := Function.update s.descriptors ⟨t, s.opened t⟩ (some p)
        isOpen := Function.update s.isOpen ⟨t, s.opened t⟩ true
        opened := Function.update s.opened t (s.opened t + 1)
        overwritten := if s.fs.node p = none then s.overwritten else p :: s.overwritten })
  | .close fd, s => some ((), s.closeAll [fd])
  | .vecAt v i, s =>
    -- The index of a vector is not checked. Past the end any value is read, and that is logged.
    if i < v.length then some (v.getD i 0, s)
    else some (v.getD i 0, { s with outOfBounds := s.outOfBounds + 1 })
  | .filesizeAt id i, s =>
    match s.opInProgress id with
    | some op =>
      if i < op.filesizes.length then some (op.filesizes.getD i 0, s)
      else some (op.filesizes.getD i 0, { s with outOfBounds := s.outOfBounds + 1 })
    | none => none
  | .before callback uargs fileset, s =>
    some (w.callback fileset,
      { s with
        calls := s.calls + 1
        callbacks := .before t callback uargs fileset :: s.callbacks })
  | .insert id op, s => some ((), s.modifyOp id op)
  | .find id, s => some ((s.opInProgress id).isSome, s)
  | .erase id, s => some ((), { s with opInProgress := Function.update s.opInProgress id none })
  | .lock id, s =>
    match s.opInProgress id with
    -- A mutex that is held makes the handler wait.
    | some op => if op.mutex = none then some ((), s.modifyOp id { op with mutex := some t })
        else none
    | none => none
  | .unlock id, s =>
    match s.opInProgress id with
    | some op => some ((), s.modifyOp id { op with mutex := none })
    | none => some ((), s)
  | .load id, s => (s.opInProgress id).map fun op => (op, s)
  | .setError id error, s =>
    (s.opInProgress id).map fun op => ((), s.modifyOp id { op with error })
  | .closeFds id, s =>
    (s.opInProgress id).map fun op =>
      -- The numbers of the descriptors stay in the record.
      ((), (s.closeAll op.fds).modifyOp id { op with closedBy := some t })
  | .after id callback uargs, s =>
    (s.opInProgress id).map fun op =>
      ((w.callback op.fileset).1,
        { s.modifyOp id { op with fileset := (w.callback op.fileset).2 } with
          calls := s.calls + 1
          callbacks := .after t id callback uargs op.fileset :: s.callbacks })
  | .ftruncate _ fd size, s =>
    match s.descriptors fd with
    | some p =>
      -- The size is an `off_t`: a larger one is negative, and the call fails.
      if w.io ≠ .fail ∧ size < offsetBound ∧ s.isOpen fd then
        some (true, { s with fs := s.fs.modifyFile p (resize 0 size) })
      else some (false, s)
    | none => some (false, s)
  | .mmap _ fd _, s =>
    match s.descriptors fd with
    | some p =>
      if w.io ≠ .fail ∧ s.isOpen fd then
        some (.mapped ⟨t, s.mapped t⟩,
          { s with
            segments := Function.update s.segments ⟨t, s.mapped t⟩ (some p)
            mapped := Function.update s.mapped t (s.mapped t + 1) })
      else some (.failed, s.mapFailure t)
    | none => some (.failed, s.mapFailure t)
  | .munmap a, s => some ((), { s with unmaps := Function.update s.unmaps a (s.unmaps a + 1) })
  | .expose segs, s =>
    -- An empty list of segments is an invalid argument: the call throws.
    if segs = [] then none
    else some ((), { s with exposes := fun a => s.exposes a + (segs.map Prod.fst).count a })
  | .pull remote segs, s =>
    match remote with
    | none => none
    | some bulk =>
      -- Both sides of a transfer have to be memory.
      if bulk.all Mapping.isMapped ∧ segs.all (·.1.isMapped) then
        -- No more bytes are moved than the smaller side has.
        let n := (w.io.count (min bulk.bytes.length (segsRoom segs))).getD 0
        some (n, { s with fs := scatter s.segments segs (bulk.bytes.take n) s.fs })
      else none
  | .msync a, s =>
    -- Only a mapping can be synchronised.
    some (decide (w.io ≠ .fail ∧ a ≠ .null ∧ a ≠ .failed),
      { s with syncs := Function.update s.syncs a (s.syncs a + 1) })
  | .pwrite id fd data offset, s => some (s.write t w.io id fd data offset)
  | .abtIoPwrite id fd data offset, s => some (s.write t w.io id fd data offset)
  | .respond r, s => some ((), { s with responses := Function.update s.responses t (some r) })

/-- The programs of the handlers. -/
abbrev Handler (α : Type) := Prog Ans α

/-- The handler that issues one operation. -/
abbrev issue (o : Op) : Handler (Ans o) := Prog.call o

end Remi
