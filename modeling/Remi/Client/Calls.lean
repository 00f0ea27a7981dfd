import Remi.Client.Migrate
import Remi.Lib.Prog

/-!
# `Remi.Client.Calls`: the transfer functions, call by call

`migrate_using_mmap` and `migrate_using_abtio` once more, as programs over their system calls and
RPCs. `Remi.Client.Transfer` says what they compute. Here are the descriptors, the mappings and
the two buffers they handle meanwhile, with the cleanup on each of their exits.

`perform` is the meaning of a call, for a `SourceTree`, a `ClientIo` and an `Rpc` as in
`Remi.Client.Transfer`. A write RPC can be sent without waiting for its answer, which is then
taken by `wait`. An RPC that throws is not modelled.
-/

set_option autoImplicit false

namespace Remi

open Remi.Lib

/-- A descriptor of the client: the number of the `open` that has returned it. -/
abbrev SourceFd := Nat

/-- An address that `mmap` has returned to the client. A mapping has the number of its call. -/
abbrev SourceAddr := Mapping Nat

/-- The memory of the two buffers. `std::swap` exchanges the buffers, and the memory stays. -/
inductive Block where
  | first
  | second
deriving DecidableEq, Repr

/-- The calls of a migration. -/
inductive Call where
  | open_ (path : Str)
  | fstat (fd : SourceFd)
  | close (fd : SourceFd)
  | mmap (fd : SourceFd) (size : Nat)
  | munmap (a : SourceAddr)
  | expose (theData : List SourceAddr)
  | resize (b : Block) (n : Nat)
  | read (fd : SourceFd) (b : Block)
  | pread (fd : SourceFd) (b : Block) (offset : Nat)
  | migrateStart (fileset : Fileset) (theSizes theModes : List Nat)
  | migrateMmap (operationId : Uuid) (localBulk : Option (List SourceAddr))
  | migrateWrite (operationId : Uuid) (i offset : Nat) (b : Block)
  | migrateWriteAsync (operationId : Uuid) (i offset : Nat) (b : Block)
  | wait
  | migrateEnd (operationId : Uuid)

/-- The type of the results of a call. -/
@[reducible] def Reply : Call → Type
  | .open_ _ => Option SourceFd
  | .fstat _ => Option (Nat × Nat)
  | .close _ => Unit
  | .mmap _ _ => SourceAddr
  | .munmap _ => Unit
  | .expose _ => Unit
  | .resize _ _ => Unit
  | .read _ _ => Unit
  | .pread _ _ _ => Unit
  | .migrateStart _ _ _ => Ret × Int × Uuid
  | .migrateMmap _ _ => Ret
  | .migrateWrite _ _ _ _ => Ret
  | .migrateWriteAsync _ _ _ _ => Unit
  | .wait => Ret
  | .migrateEnd _ => Ret × Int

abbrev ClientProg (α : Type) := Prog Reply α

abbrev invoke (c : Call) : ClientProg (Reply c) := Prog.call c

/-- What a transfer function returns: its result, `*status` and the fileset. -/
structure Returned where
  ret : Ret
  status : Int
  fileset : Fileset

/-! ### `migrate_using_mmap` -/

/-- `cleanup` of `migrate_using_mmap`. -/
def unmapSegments : List SourceAddr → ClientProg Unit
  | [] => pure ()
  | a :: rest => do
    invoke (.munmap a)
    unmapSegments rest

/-- The loop that opens and maps the files. -/
def mapSources (root : Str) : List Str → List SourceAddr → List Nat → List Nat →
    ClientProg (Except Ret (List SourceAddr × List Nat × List Nat))
  | [], theData, theSizes, theModes => pure (.ok (theData, theSizes, theModes))
  | filename :: rest, theData, theSizes, theModes => do
    match ← invoke (.open_ (root ++ filename)) with
    | none =>
      unmapSegments theData
      pure (.error .errUnknownFile)
    | some fd =>
      match ← invoke (.fstat fd) with
      | none =>
        invoke (.close fd)
        unmapSegments theData
        pure (.error .errIo)
      | some (size, mode) =>
        if size = 0 then
          invoke (.close fd)
          mapSources root rest theData (theSizes ++ [size]) (theModes ++ [mode])
        else
          let segment ← invoke (.mmap fd size)
          if segment = .null then
            -- The descriptor stays open here.
            unmapSegments theData
            pure (.error .errAllocation)
          else
            invoke (.close fd)
            mapSources root rest (theData ++ [segment]) (theSizes ++ [size]) (theModes ++ [mode])

/-- The part of `migrate_using_mmap` behind `migrate_start`. -/
def sendMapped (restored : Fileset) (theData : List SourceAddr)
    (localBulk : Option (List SourceAddr)) (status : Int) (operationId : Uuid) :
    ClientProg Returned := do
  let ret ← invoke (.migrateMmap operationId localBulk)
  if ret ≠ .success then
    unmapSegments theData
    pure ⟨ret, status, restored⟩
  else
    let result ← invoke (.migrateEnd operationId)
    unmapSegments theData
    pure ⟨result.1, if result.1 = .errUser then result.2 else 0, restored⟩

/-- The bulk handle is a null one when there is no segment. -/
def exposeSegments (theData : List SourceAddr) : ClientProg (Option (List SourceAddr)) :=
  if theData = [] then pure none
  else do
    invoke (.expose theData)
    pure (some theData)

def migrateMmapCalls (fileset : Fileset) (files : SortedSet Str) (remoteRoot : Str)
    (status : Int) : ClientProg Returned := do
  match ← mapSources fileset.root files.toList [] [] [] with
  | .error ret => pure ⟨ret, status, fileset⟩
  | .ok (theData, theSizes, theModes) =>
    let localBulk ← exposeSegments theData
    let swapped := fileset.swapOut files remoteRoot
    let (ret, userStatus, operationId) ← invoke (.migrateStart swapped theSizes theModes)
    if ret ≠ .success then
      unmapSegments theData
      pure ⟨ret, if ret = .errUser then userStatus else status, swapped⟩
    else sendMapped (swapped.putBack fileset) theData localBulk status operationId

/-! ### `migrate_using_abtio` -/

/-- `cleanup` of `migrate_using_abtio`. -/
def closeSources : List SourceFd → ClientProg Unit
  | [] => pure ()
  | fd :: rest => do
    invoke (.close fd)
    closeSources rest

/-- The loop that opens the files. -/
def openEach (root : Str) : List Str → List SourceFd → List Nat → List Nat →
    ClientProg (Except Ret (List SourceFd × List Nat × List Nat))
  | [], opened, theSizes, theModes => pure (.ok (opened, theSizes, theModes))
  | filename :: rest, opened, theSizes, theModes => do
    match ← invoke (.open_ (root ++ filename)) with
    | none =>
      closeSources opened
      pure (.error .errUnknownFile)
    | some fd =>
      match ← invoke (.fstat fd) with
      | none =>
        closeSources (opened ++ [fd])
        pure (.error .errIo)
      | some (size, mode) =>
        openEach root rest (opened ++ [fd]) (theSizes ++ [size]) (theModes ++ [mode])

/-- The inner loop of the plain transfer, for the file `i`. -/
def plainChunkCalls (operationId : Uuid) (maxChunkSize i : Nat) (fd : SourceFd) :
    Nat → Nat → Nat → Ret → ClientProg Ret
  | 0, _, _, ret => pure ret
  | fuel + 1, remainingSize, currentOffset, ret =>
    if remainingSize = 0 then pure ret
    else do
      let chunkSize := if remainingSize < maxChunkSize then remainingSize else maxChunkSize
      invoke (.resize .first chunkSize)
      invoke (.read fd .first)
      let ret ← invoke (.migrateWrite operationId i currentOffset .first)
      plainChunkCalls operationId maxChunkSize i fd fuel (remainingSize - chunkSize)
        (currentOffset + chunkSize) ret

/-- The plain loop over the files, each with its descriptor and size. -/
def plainFileCalls (operationId : Uuid) (maxChunkSize : Nat) :
    List (SourceFd × Nat) → Nat → Ret → ClientProg Ret
  | [], _, ret => pure ret
  | (fd, size) :: rest, i, ret => do
    let ret ← plainChunkCalls operationId maxChunkSize i fd size size 0 ret
    plainFileCalls operationId maxChunkSize rest (i + 1) ret

/-- The `while` loop of the pipelined transfer, for the file `i`. The result comes with the
memory of the current and of the previous buffer. -/
def pipelineChunkCalls (operationId : Uuid) (maxChunkSize i : Nat) (fd : SourceFd) :
    Nat → Nat → Nat → Nat → Block → Block → Ret → ClientProg (Ret × Block × Block)
  | 0, _, _, _, current, previous, ret => pure (ret, current, previous)
  | fuel + 1, remainingSize, previousChunkOffset, currentChunkOffset, current, previous, _ => do
    invoke (.migrateWriteAsync operationId i previousChunkOffset previous)
    if remainingSize = 0 then
      let ret ← invoke .wait
      pure (ret, current, previous)
    else
      let currentChunkSize :=
        if remainingSize < maxChunkSize then remainingSize else maxChunkSize
      -- The read goes on while the request is under way.
      invoke (.resize current currentChunkSize)
      invoke (.pread fd current currentChunkOffset)
      let ret ← invoke .wait
      if ret ≠ .success then pure (ret, current, previous)
      else
        pipelineChunkCalls operationId maxChunkSize i fd fuel (remainingSize - currentChunkSize)
          currentChunkOffset (currentChunkOffset + currentChunkSize) previous current ret

/-- The transfer of one file. -/
def pipelineOneCalls (operationId : Uuid) (maxChunkSize i : Nat) (fd : SourceFd) (size : Nat)
    (current previous : Block) (ret : Ret) : ClientProg (Ret × Block × Block) := do
  let currentChunkSize := if size < maxChunkSize then size else maxChunkSize
  invoke (.resize current currentChunkSize)
  invoke (.pread fd current 0)
  pipelineChunkCalls operationId maxChunkSize i fd (size + 1) (size - currentChunkSize) 0
    currentChunkSize previous current ret

/-- The pipelined loop over the files, up to the first error. -/
def pipelineFileCalls (operationId : Uuid) (maxChunkSize : Nat) :
    List (SourceFd × Nat) → Nat → Block → Block → Ret → ClientProg Ret
  | [], _, _, _, ret => pure ret
  | (fd, size) :: rest, i, current, previous, ret => do
    let (ret, current, previous) ←
      pipelineOneCalls operationId maxChunkSize i fd size current previous ret
    if ret ≠ .success then pure ret
    else pipelineFileCalls operationId maxChunkSize rest (i + 1) current previous ret

/-- The transfer of all files. The buffers are made here. -/
def writeFileCalls (abtio : Bool) (operationId : Uuid) (maxChunkSize : Nat)
    (opened : List (SourceFd × Nat)) : ClientProg Ret := do
  invoke (.resize .first maxChunkSize)
  if abtio then
    invoke (.resize .second maxChunkSize)
    pipelineFileCalls operationId maxChunkSize opened 0 .first .second .success
  else plainFileCalls operationId maxChunkSize opened 0 .success

/-- The part of `migrate_using_abtio` behind `migrate_start`. -/
def sendOpened (abtio : Bool) (restored : Fileset) (opened : List SourceFd)
    (theSizes : List Nat) (status : Int) (operationId : Uuid) : ClientProg Returned := do
  let ret ← writeFileCalls abtio operationId restored.xferSize.val (opened.zip theSizes)
  if ret ≠ .success then
    closeSources opened
    pure ⟨ret, status, restored⟩
  else
    let result ← invoke (.migrateEnd operationId)
    closeSources opened
    pure ⟨result.1, if result.1 = .errUser then result.2 else 0, restored⟩

def migrateAbtioCalls (abtio : Bool) (fileset : Fileset) (files : SortedSet Str)
    (remoteRoot : Str) (status : Int) : ClientProg Returned := do
  match ← openEach fileset.root files.toList [] [] [] with
  | .error ret => pure ⟨ret, status, fileset⟩
  | .ok (opened, theSizes, theModes) =>
    let swapped := fileset.swapOut files remoteRoot
    let (ret, userStatus, operationId) ← invoke (.migrateStart swapped theSizes theModes)
    if ret ≠ .success then
      closeSources opened
      pure ⟨ret, if ret = .errUser then userStatus else status, swapped⟩
    else sendOpened abtio (swapped.putBack fileset) opened theSizes status operationId

/-- The transfer that `mode` selects. -/
def transferCalls (ph : RemiProviderHandle) (mode : Int) (fileset : Fileset)
    (files : SortedSet Str) (remoteRoot : Str) (status : Int) : ClientProg Returned :=
  if mode = remiUseMmap then migrateMmapCalls fileset files remoteRoot status
  else migrateAbtioCalls ph.abtio fileset files remoteRoot status

/-! ### What a call does -/

/-- The process of the client during a transfer, with the provider it talks to. -/
structure ClientProcess (σ : Type) where
  server : σ
  /-- The files that have been opened, by their descriptors. -/
  files : List SourceHandle
  isOpen : SourceFd → Bool
  /-- The offset of an open file. -/
  position : SourceFd → Nat
  /-- The number of chunks that have been read. -/
  reads : SourceFd → Nat
  /-- The contents of the mappings. -/
  segments : List Bytes
  buffer : Block → Bytes
  /-- The request under way: the buffer that it sends, and its answer. -/
  pending : Option (Block × Ret)
  /-- History: how often a descriptor has been closed. -/
  closes : SourceFd → Nat
  /-- History: how often `mmap` has returned an address. -/
  mmaps : SourceAddr → Nat
  unmaps : SourceAddr → Nat

namespace ClientProcess

variable {σ : Type}

/-- The process before the transfer. -/
def init (server : σ) : ClientProcess σ where
  server := server
  files := []
  isOpen _ := false
  position _ := 0
  reads _ := 0
  segments := []
  buffer _ := []
  pending := none
  closes _ := 0
  mmaps _ := 0
  unmaps _ := 0

/-- The bytes behind an address of the process. -/
def shows (s : ClientProcess σ) : SourceAddr → Mapping Bytes
  | .null => .null
  | .failed => .failed
  | .mapped n => .mapped (s.segments.getD n [])

/-- A read into the whole buffer. -/
def readAt (io : ClientIo) (s : ClientProcess σ) (fd : SourceFd) (b : Block) (offset : Nat) :
    ClientProcess σ × Nat :=
  match s.files[fd]? with
  | some file =>
    if s.isOpen fd then
      let (buffer, n) := readInto (io.read fd (s.reads fd)) file offset (s.buffer b)
      ({ s with
          buffer := Function.update s.buffer b buffer
          reads := Function.update s.reads fd (s.reads fd + 1) }, n)
    else (s, 0)
  | none => (s, 0)

end ClientProcess

/-- What `mmap` returns, with the process after it. -/
def mapSegment {σ : Type} (io : ClientIo) (fd : SourceFd) (s : ClientProcess σ) :
    SourceAddr × ClientProcess σ :=
  let counted (a : SourceAddr) (s : ClientProcess σ) : SourceAddr × ClientProcess σ :=
    (a, { s with mmaps := Function.update s.mmaps a (s.mmaps a + 1) })
  match s.files[fd]? with
  | some file =>
    if s.isOpen fd then
      match mmapFile (io.mmapFails fd) (s.segments.map List.length).sum file with
      | .mapped b => counted (.mapped s.segments.length) { s with segments := s.segments ++ [b] }
      | .failed => counted .failed s
      | .null => counted .null s
    else counted .failed s
  | none => counted .failed s

/-- One call of the client. -/
def perform {σ : Type} (rpc : Rpc σ) (io : ClientIo) (T : SourceTree) :
    (c : Call) → ClientProcess σ → Option (Reply c × ClientProcess σ)
  | .open_ path, s =>
    match if io.openFails s.files.length then none else T.openFile path with
    | none => some (none, s)
    | some file => some (some s.files.length,
        { s with
          files := s.files ++ [file]
          isOpen := Function.update s.isOpen s.files.length true })
  | .fstat fd, s =>
    some (if io.fstatFails fd = false ∧ s.isOpen fd = true then
      s.files[fd]?.map fun file => (file.size, file.mode) else none, s)
  | .close fd, s =>
    some ((), { s with
      isOpen := Function.update s.isOpen fd false
      closes := Function.update s.closes fd (s.closes fd + 1) })
  | .mmap fd _, s => some (mapSegment io fd s)
  | .munmap a, s => some ((), { s with unmaps := Function.update s.unmaps a (s.unmaps a + 1) })
  | .expose _, s => some ((), s)
  | .resize b n, s =>
    some ((), { s with buffer := Function.update s.buffer b (resize 0 n (s.buffer b)) })
  | .read fd b, s =>
    let (s', n) := s.readAt io fd b (s.position fd)
    some ((), { s' with position := Function.update s.position fd (s.position fd + n) })
  | .pread fd b offset, s => some ((), (s.readAt io fd b offset).1)
  | .migrateStart fileset theSizes theModes, s =>
    let (answer, server) := rpc.start fileset theSizes theModes s.server
    some (answer, { s with server })
  | .migrateMmap operationId localBulk, s =>
    let (ret, server) := rpc.mmap operationId (localBulk.map (List.map s.shows)) s.server
    some (ret, { s with server })
  | .migrateWrite operationId i offset b, s =>
    let (ret, server) := rpc.write operationId i offset (s.buffer b) s.server
    some (ret, { s with server })
  | .migrateWriteAsync operationId i offset b, s =>
    -- The answer stays with the request until it is waited for.
    let (ret, server) := rpc.write operationId i offset (s.buffer b) s.server
    some ((), { s with server, pending := some (b, ret) })
  | .wait, s => s.pending.map fun request => (request.2, { s with pending := none })
  | .migrateEnd operationId, s =>
    let (result, server) := rpc.end_ operationId s.server
    some (result, { s with server })

end Remi
