import Remi.FsUtil

/-!
# `Remi.Client.Transfer`: `migrate_using_mmap` and `migrate_using_abtio`

The two transfer functions of `remi-client.cpp`, over a `SourceTree`. `ClientIo` says how the
local calls end, by the position of the file in the fileset and of the chunk in the file, and
`Rpc` stands for the provider: what each of the four RPCs answers in a state `σ` of the
provider, and the state after it. An RPC that the provider does not answer counts as
answered with `errMercury`.

File numbers are natural numbers here. From 2^32 files on the loops of `migrate_using_abtio`
do not end.
-/

set_option autoImplicit false

namespace Remi

open Remi.Lib

/-- How the local calls of a migration end. -/
structure ClientIo where
  openFails : Nat → Bool
  fstatFails : Nat → Bool
  mmapFails : Nat → Bool
  /-- The `read` or `pread` of a chunk of a file. -/
  read : Nat → Nat → Io

/-- The four RPCs of a provider. -/
structure Rpc (σ : Type) where
  start : Fileset → List Nat → List Nat → σ → (Ret × Int × Uuid) × σ
  mmap : Uuid → Option Bulk → σ → Ret × σ
  write : Uuid → Nat → Nat → Bytes → σ → Ret × σ
  end_ : Uuid → σ → (Ret × Int) × σ

/-- What a transfer function leaves: its result, `*status`, the caller's fileset and the
state of the provider. -/
structure Migrated (σ : Type) where
  ret : Ret
  status : Int
  fileset : Fileset
  server : σ

/-- The fileset with its members moved out and those of the remote side put in. -/
def Fileset.swapOut (fileset : Fileset) (files : SortedSet Str) (remoteRoot : Str) : Fileset :=
  { fileset with root := remoteRoot, files := files, directories := .empty }

/-- The fileset with its original members put back. -/
def Fileset.putBack (fileset original : Fileset) : Fileset :=
  { fileset with
    root := original.root, files := original.files, directories := original.directories }

section
variable {σ : Type} (rpc : Rpc σ) (io : ClientIo) (T : SourceTree)

/-- `migrate_end` and what is made of its answer. -/
def finish (fileset : Fileset) (operationId : Uuid) (st : σ) : Migrated σ :=
  let (result, st) := rpc.end_ operationId st
  ⟨result.1, if result.1 = .errUser then result.2 else 0, fileset, st⟩

/-- `migrate_start` with the fileset `swapped`, and `rest` with the operation id when it
succeeds. On an error the function returns at once. -/
def sendStart (swapped : Fileset) (theSizes theModes : List Nat) (status : Int) (st : σ)
    (rest : Uuid → σ → Migrated σ) : Migrated σ :=
  let ((ret, userStatus, operationId), st) := rpc.start swapped theSizes theModes st
  if ret ≠ .success then ⟨ret, if ret = .errUser then userStatus else status, swapped, st⟩
  else rest operationId st

/-! ### `migrate_using_mmap` -/

/-- The segments, sizes and modes of the files of a fileset. -/
structure Exposed where
  theData : Bulk
  theSizes : List Nat
  theModes : List Nat

/-- The bytes that are mapped so far. -/
def Exposed.mapped (e : Exposed) : Nat := e.theData.bytes.length

/-- `mmap` of a file of `size` bytes, when the mappings before it take `mapped` bytes. A
directory cannot be mapped, and neither can more than the address space holds. -/
def mmapFile (fails : Bool) (mapped : Nat) (file : SourceHandle) : Mapping Bytes :=
  match file.data with
  | some b => if fails ∨ sizeModulus ≤ mapped + file.size then .failed else .mapped b.val
  | none => .failed

/-- The loop that opens and maps the files. -/
def exposeFiles (root : Str) : List Str → Nat → Exposed → Except Ret Exposed
  | [], _, e => .ok e
  | filename :: rest, i, e =>
    match if io.openFails i then none else T.openFile (root ++ filename) with
    | none => .error .errUnknownFile
    | some file =>
      if io.fstatFails i then .error .errIo
      else
        let e' : Exposed :=
          { e with theSizes := e.theSizes ++ [file.size], theModes := e.theModes ++ [file.mode] }
        -- An empty file has a size and a mode, but no segment.
        if file.size = 0 then exposeFiles root rest (i + 1) e'
        else
          -- The source compares with `NULL`, so a failed mapping is exposed too.
          match mmapFile (io.mmapFails i) e.mapped file with
          | .null => .error .errAllocation
          | segment =>
            exposeFiles root rest (i + 1) { e' with theData := e.theData ++ [segment] }

/-- The rest of `migrate_using_mmap` behind `migrate_start`. -/
def sendMmap (restored : Fileset) (localBulk : Option Bulk) (status : Int)
    (operationId : Uuid) (st : σ) : Migrated σ :=
  let (ret, st) := rpc.mmap operationId localBulk st
  if ret ≠ .success then ⟨ret, status, restored, st⟩
  else finish rpc restored operationId st

def migrateUsingMmap (fileset : Fileset) (files : SortedSet Str) (remoteRoot : Str)
    (status : Int) (st : σ) : Migrated σ :=
  match exposeFiles io T fileset.root files.toList 0 ⟨[], [], []⟩ with
  | .error ret => ⟨ret, status, fileset, st⟩
  | .ok e =>
    -- Without segments the bulk handle stays a null one.
    let localBulk := if e.theData = [] then none else some e.theData
    let swapped := fileset.swapOut files remoteRoot
    sendStart rpc swapped e.theSizes e.theModes status st
      (sendMmap rpc (swapped.putBack fileset) localBulk status)

/-! ### `migrate_using_abtio` -/

/-- The loop that opens the files. -/
def openSources (root : Str) : List Str → Nat → Except Ret (List SourceHandle)
  | [], _ => .ok []
  | filename :: rest, i =>
    match if io.openFails i then none else T.openFile (root ++ filename) with
    | none => .error .errUnknownFile
    | some file =>
      if io.fstatFails i then .error .errIo
      else (openSources root rest (i + 1)).map (file :: ·)

/-- `read` or `pread` at `position` into the whole buffer: the buffer after it, and the
number of bytes read. A directory cannot be read. -/
def readInto (outcome : Io) (file : SourceHandle) (position : Nat) (buffer : Bytes) :
    Bytes × Nat :=
  match file.data with
  | none => (buffer, 0)
  | some b =>
    let n := (outcome.count (min buffer.length (b.val.length - position))).getD 0
    (overlay 0 buffer 0 ((b.val.drop position).take n), n)

/-- The state of the plain loop. -/
structure PlainState (σ : Type) where
  buffer : Bytes
  ret : Ret
  server : σ

/-- The inner loop of the plain transfer, for the file `i`. `position` is the offset of the
open file, `chunk` counts the reads, and `fuel` is at least the number of chunks left. -/
def plainChunks (operationId : Uuid) (maxChunkSize i : Nat) (file : SourceHandle) :
    Nat → Nat → Nat → Nat → Nat → PlainState σ → PlainState σ
  | 0, _, _, _, _, s => s
  | fuel + 1, remainingSize, currentOffset, position, chunk, s =>
    if remainingSize = 0 then s
    else
      let chunkSize := if remainingSize < maxChunkSize then remainingSize else maxChunkSize
      let (buffer, sizeRead) :=
        readInto (io.read i chunk) file position (resize 0 chunkSize s.buffer)
      -- The whole buffer is sent, also after a short read, and the answer does not stop the loop.
      let (ret, st) := rpc.write operationId i currentOffset buffer s.server
      plainChunks operationId maxChunkSize i file fuel (remainingSize - chunkSize)
        (currentOffset + chunkSize) (position + sizeRead) (chunk + 1) ⟨buffer, ret, st⟩

/-- The plain loop over the files. -/
def plainFiles (operationId : Uuid) (maxChunkSize : Nat) :
    List SourceHandle → Nat → PlainState σ → PlainState σ
  | [], _, s => s
  | file :: rest, i, s =>
    plainFiles operationId maxChunkSize rest (i + 1)
      (plainChunks rpc io operationId maxChunkSize i file file.size file.size 0 0 0 s)

/-- The state of the pipelined loop: the two buffers with the offset of the chunk in each,
and the bytes of the file that are still to be read. -/
structure PipelineState (σ : Type) where
  currentBuffer : Bytes
  previousBuffer : Bytes
  ret : Ret
  server : σ

/-- The `while` loop of the pipelined transfer, for the file `i`. The previous chunk is sent
while the current one is read. The answer is looked at after the read. -/
def pipelineChunks (operationId : Uuid) (maxChunkSize i : Nat) (file : SourceHandle) :
    Nat → Nat → Nat → Nat → Nat → PipelineState σ → PipelineState σ
  | 0, _, _, _, _, s => s
  | fuel + 1, remainingSize, previousChunkOffset, currentChunkOffset, chunk, s =>
    -- The request is sent before the read, and its answer is waited for behind it.
    let (ret, st) := rpc.write operationId i previousChunkOffset s.previousBuffer s.server
    if remainingSize = 0 then { s with ret := ret, server := st }
    else
      let currentChunkSize :=
        if remainingSize < maxChunkSize then remainingSize else maxChunkSize
      let (buffer, _) := readInto (io.read i chunk) file currentChunkOffset
        (resize 0 currentChunkSize s.currentBuffer)
      -- The chunk that has been read is not sent after an error.
      if ret ≠ .success then { s with currentBuffer := buffer, ret := ret, server := st }
      else
        pipelineChunks operationId maxChunkSize i file fuel (remainingSize - currentChunkSize)
          currentChunkOffset (currentChunkOffset + currentChunkSize) (chunk + 1)
          ⟨s.previousBuffer, buffer, ret, st⟩

/-- The transfer of one file: the first chunk is read before the `while` loop. -/
def pipelineFile (operationId : Uuid) (maxChunkSize i : Nat) (file : SourceHandle)
    (s : PipelineState σ) : PipelineState σ :=
  let currentChunkSize := if file.size < maxChunkSize then file.size else maxChunkSize
  let (buffer, _) := readInto (io.read i 0) file 0 (resize 0 currentChunkSize s.currentBuffer)
  pipelineChunks rpc io operationId maxChunkSize i file (file.size + 1)
    (file.size - currentChunkSize) 0 currentChunkSize 1
    { s with currentBuffer := s.previousBuffer, previousBuffer := buffer }

/-- The pipelined loop over the files, up to the first error. -/
def pipelineFiles (operationId : Uuid) (maxChunkSize : Nat) :
    List SourceHandle → Nat → PipelineState σ → PipelineState σ
  | [], _, s => s
  | file :: rest, i, s =>
    let s := pipelineFile rpc io operationId maxChunkSize i file s
    if s.ret ≠ .success then s else pipelineFiles operationId maxChunkSize rest (i + 1) s

/-- The transfer of all files, with the last value of `ret`. -/
def writeFiles (abtio : Bool) (operationId : Uuid) (maxChunkSize : Nat)
    (opened : List SourceHandle) (st : σ) : Ret × σ :=
  let buffer := List.replicate maxChunkSize 0
  if abtio then
    let s := pipelineFiles rpc io operationId maxChunkSize opened 0 ⟨buffer, buffer, .success, st⟩
    (s.ret, s.server)
  else
    let s := plainFiles rpc io operationId maxChunkSize opened 0 ⟨buffer, .success, st⟩
    (s.ret, s.server)

/-- The rest of `migrate_using_abtio` behind `migrate_start`. -/
def sendWrites (abtio : Bool) (restored : Fileset) (opened : List SourceHandle) (status : Int)
    (operationId : Uuid) (st : σ) : Migrated σ :=
  let (ret, st) := writeFiles rpc io abtio operationId restored.xferSize.val opened st
  if ret ≠ .success then ⟨ret, status, restored, st⟩
  else finish rpc restored operationId st

/-- `abtio`: the client has an ABT-IO instance. -/
def migrateUsingAbtio (abtio : Bool) (fileset : Fileset) (files : SortedSet Str)
    (remoteRoot : Str) (status : Int) (st : σ) : Migrated σ :=
  match openSources io T fileset.root files.toList 0 with
  | .error ret => ⟨ret, status, fileset, st⟩
  | .ok opened =>
    let swapped := fileset.swapOut files remoteRoot
    sendStart rpc swapped (opened.map (·.size)) (opened.map (·.mode)) status st
      (sendWrites rpc io abtio (swapped.putBack fileset) opened status)

end

end Remi
