import Remi.FsUtil

/-!
# `Remi.Server.Handlers`: the four RPC handlers

`migrate_start`, `migrate_mmap`, `migrate_write` and `migrate_end` of `remi-server.cpp`, as
programs over the operations of `Remi.Server.State`. A block that holds the mutex
`m_op_in_progress_mtx` is one operation (`find`, `insert`, `erase`). The mutex of a record is
taken and released by `lock` and `unlock`, where a `lock_guard` is constructed and
destroyed.
-/

set_option autoImplicit false

namespace Remi

open Remi.Lib

/-! ### `migrate_start` -/

/-- The key of a fileset's class. -/
def classKey (fileset : Fileset) : ClassKey := ⟨fileset.className, fileset.providerId⟩

/-- The existence check: `true` when one of the files exists. -/
def anyExists (root : Str) : List Str → Handler Bool
  | [] => pure false
  | filename :: rest => do
    if ← issue (.access (root ++ filename)) then pure true
    else anyExists root rest

/-- `close` on each descriptor of a list. -/
def closeEach : List Fd → Handler Unit
  | [] => pure ()
  | fd :: rest => do
    issue (.close fd)
    closeEach rest

/-- The loop that creates the files. `i` counts the files, and `opened` are their
descriptors so far. After a failure these are closed and there is no result. -/
def openFiles (root : Str) (theModes : List Nat) :
    List Str → Nat → List Fd → Handler (Option (List Fd))
  | [], _, opened => pure (some opened)
  | filename :: rest, i, opened => do
    let theFilename := root ++ filename
    mkdirs (dirname theFilename)
    -- `theModes` comes with the request, and may be shorter than the files.
    let mode ← issue (.vecAt theModes i)
    match ← issue (.openTrunc theFilename mode) with
    | none =>
      -- The files created so far stay where they are.
      closeEach opened
      pure none
    | some fd => openFiles root theModes rest (i + 1) (opened ++ [fd])

/-- The part of `migrate_start` behind the checks. The callback may have changed the
fileset. -/
def createOperation (fileset : Fileset) (filesizes theModes : List Nat) (operationId : Uuid) :
    Handler Unit := do
  match ← openFiles fileset.root theModes fileset.files.toList 0 [] with
  | none => issue (.respond (.start .errIo 0 operationId))
  | some fds =>
    -- The record is in the map before the answer is sent.
    issue (.insert operationId { fileset, filesizes, modes := theModes, fds })
    issue (.respond (.start .success 0 operationId))

/-- The call of the callback, with the fileset after it. The status is 1 before a callback
sets it. -/
def callBefore (klass : MigrationClass) (fileset : Fileset) : Handler (Int × Fileset) :=
  match klass.beforeCallback with
  | some callback => issue (.before callback klass.uargs fileset)
  | none => pure (1, fileset)

def migrateStart (fileset : Fileset) (filesizes theModes : List Nat) : Handler Unit := do
  let operationId ← issue .newUuid
  let key := classKey fileset
  if !(← issue (.classCount key)) then
    issue (.respond (.start .errUnknownClass 1 operationId))
  else if ← anyExists fileset.root fileset.files.toList then
    issue (.respond (.start .errFileExists 1 operationId))
  else
    -- The class is looked up a second time. It may have left the map since the check.
    let klass ← issue (.classAt key)
    let (status, fileset) ← callBefore klass fileset
    if status ≠ 0 then
      issue (.respond (.start .errUser status operationId))
    else
      createOperation fileset filesizes theModes operationId

/-! ### `migrate_end` -/

/-- The call of the "after" callback on the record's fileset. The status is 0 before a
callback sets it. -/
def callAfter (klass : MigrationClass) (operationId : Uuid) : Handler Int :=
  match klass.afterCallback with
  | some callback => issue (.after operationId callback klass.uargs)
  | none => pure 0

/-- The exit for an operation with a failed write. The record is erased under its own
guard, which is released last. -/
def endFailed (operationId : Uuid) (error : Ret) : Handler Unit := do
  issue (.respond (.end_ error 0))
  issue (.erase operationId)
  issue (.unlock operationId)

/-- The end of an operation without an error. -/
def endFinished (operationId : Uuid) : Handler Unit := do
  let op ← issue (.load operationId)
  let klass ← issue (.classAt (classKey op.fileset))
  let status ← callAfter klass operationId
  issue (.respond (.end_ (if status = 0 then .success else .errUser) status))
  -- The guard goes out of scope here. The record leaves the map in a block of its own.
  issue (.unlock operationId)
  issue (.erase operationId)

def migrateEnd (operationId : Uuid) : Handler Unit := do
  if !(← issue (.find operationId)) then
    issue (.respond (.end_ .errInvalidOpid 0))
  else
    issue (.lock operationId)
    -- The descriptors are closed before the error of the record is looked at.
    issue (.closeFds operationId)
    let op ← issue (.load operationId)
    if op.error ≠ .success then endFailed operationId op.error
    else endFinished operationId

/-! ### `migrate_mmap` -/

/-- `munmap` on each segment. -/
def unmapEach : List (Addr × Nat) → Handler Unit
  | [] => pure ()
  | seg :: rest => do
    issue (.munmap seg.1)
    unmapEach rest

/-- The loop that truncates and maps the files, in the order of the descriptors. The flag
of the result says whether a step has failed. -/
def mapFiles (operationId : Uuid) :
    List Fd → Nat → List (Addr × Nat) → Handler (Bool × List (Addr × Nat))
  | [], _, theData => pure (true, theData)
  | fd :: rest, i, theData => do
    let size ← issue (.filesizeAt operationId i)
    -- A file of size 0 has no segment, and is not truncated.
    if size = 0 then mapFiles operationId rest (i + 1) theData
    else if !(← issue (.ftruncate operationId fd size)) then pure (false, theData)
    else
      let segment ← issue (.mmap operationId fd size)
      -- The source compares with `NULL`. The failure value of `mmap` is another one.
      if segment = .null then pure (false, theData)
      else mapFiles operationId rest (i + 1) (theData ++ [(segment, size)])

/-- The loop that synchronises the segments: `false` when one call has failed. -/
def syncEach : List (Addr × Nat) → Handler Bool
  | [] => pure true
  | seg :: rest => do
    if !(← issue (.msync seg.1)) then pure false else syncEach rest

/-- The exits behind `cleanup(true)`. -/
def mmapFailed (operationId : Uuid) (theData : List (Addr × Nat)) : Handler Unit := do
  unmapEach theData
  issue (.erase operationId)
  issue (.respond (.mmap .errIo))

/-- The transfer into the mapped files. The exit for a short transfer does not clean up. -/
def mmapTransfer (operationId : Uuid) (remoteBulk : Option Bulk) (totalSize : Nat)
    (theData : List (Addr × Nat)) : Handler Unit := do
  issue (.expose theData)
  let transferred ← issue (.pull remoteBulk theData)
  -- Both sides of the comparison are of the type `size_t`.
  if transferred % sizeModulus ≠ totalSize then
    issue (.respond (.mmap .errMigration))
  else if !(← syncEach theData) then
    mmapFailed operationId theData
  else
    unmapEach theData
    issue (.respond (.mmap .success))

def migrateMmap (operationId : Uuid) (remoteBulk : Option Bulk) : Handler Unit := do
  if !(← issue (.find operationId)) then
    issue (.respond (.mmap .errInvalidOpid))
  else
    let op ← issue (.load operationId)
    let totalSize := op.filesizes.sum % sizeModulus
    let (mapped, theData) ← mapFiles operationId op.fds 0 []
    if !mapped then mmapFailed operationId theData
    else mmapTransfer operationId remoteBulk totalSize theData

/-! ### `migrate_write` -/

/-- The exits for a request that names no file or no range of it. The record is erased
under its own guard, which is released last. -/
def writeRefused (operationId : Uuid) : Handler Unit := do
  issue (.erase operationId)
  issue (.respond (.write .errIo))
  issue (.unlock operationId)

/-- The answer, which is sent before the write, and the write. A failed or short write is
left in the record. -/
def writeChunk (abtio : Bool) (operationId : Uuid) (fd : Fd) (writeOffset : Nat)
    (data : Bytes) : Handler Unit := do
  issue (.respond (.write .success))
  let s : Int ← if !abtio then issue (.pwrite operationId fd data writeOffset)
    else issue (.abtIoPwrite operationId fd data writeOffset)
  if s ≠ data.length then
    issue (.setError operationId .errIo)
    issue (.unlock operationId)
  else
    issue (.unlock operationId)

def migrateWrite (abtio : Bool) (operationId : Uuid) (fileNumber writeOffset : Nat)
    (data : Bytes) : Handler Unit := do
  if !(← issue (.find operationId)) then
    issue (.respond (.write .errInvalidOpid))
  else
    issue (.lock operationId)
    let op ← issue (.load operationId)
    match op.fds[fileNumber]? with
    | none => writeRefused operationId
    | some fd =>
      let size ← issue (.filesizeAt operationId fileNumber)
      -- The sum is of the type `size_t`, and can wrap.
      if size < (writeOffset + data.length) % sizeModulus then writeRefused operationId
      else writeChunk abtio operationId fd writeOffset data

/-- The handler of a request, at a provider with or without an ABT-IO instance. -/
def handle (abtio : Bool) : Request → Handler Unit
  | .start fileset filesizes theModes => migrateStart fileset filesizes theModes
  | .mmap operationId remoteBulk => migrateMmap operationId remoteBulk
  | .write operationId fileNumber writeOffset data =>
      migrateWrite abtio operationId fileNumber writeOffset data
  | .end_ operationId => migrateEnd operationId

end Remi
