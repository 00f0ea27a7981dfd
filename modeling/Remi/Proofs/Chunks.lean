import Remi.Lib.Pieces
import Remi.Proofs.Client

/-!
# `Remi.Proofs.Chunks`: the loops of `migrate_using_abtio` send chunks

The plain and the pipelined loop read and send in a different order. What they send can be
said without the RPCs: `plainReads` and `pipelineReads` are the contents of the buffers at the
time they are sent, and `sendFiles` sends chunks in their order. `writeFiles_eq` says that
either loop is the one followed by the other.

When every read is complete, the chunks of a file are its pieces (`fileChunks_chunked`). An
empty file has one empty chunk in the pipelined loop, and none in the plain one.
-/

set_option autoImplicit false

namespace Remi

open Remi.Lib

/-! ### The chunks that are read -/

section Reads
variable (io : ClientIo)

/-- The buffer at the end of each read of `plainChunks`, and the buffer at the end. -/
def plainReads (maxChunkSize i : Nat) (file : SourceHandle) :
    Nat → Nat → Nat → Nat → Bytes → List Bytes × Bytes
  | 0, _, _, _, buffer => ([], buffer)
  | fuel + 1, remainingSize, position, chunk, buffer =>
    if remainingSize = 0 then ([], buffer)
    else
      let chunkSize := if remainingSize < maxChunkSize then remainingSize else maxChunkSize
      let (buffer, sizeRead) := readInto (io.read i chunk) file position (resize 0 chunkSize buffer)
      let (chunks, last) := plainReads maxChunkSize i file fuel (remainingSize - chunkSize)
        (position + sizeRead) (chunk + 1) buffer
      (buffer :: chunks, last)

/-- The chunks of the files in the plain loop. -/
def plainFileChunks (maxChunkSize : Nat) : List SourceHandle → Nat → Bytes → List (List Bytes)
  | [], _, _ => []
  | file :: rest, i, buffer =>
    let (chunks, last) := plainReads io maxChunkSize i file file.size file.size 0 0 buffer
    chunks :: plainFileChunks maxChunkSize rest (i + 1) last

/-- The chunks that `pipelineChunks` sends, from the one in `previous` on, with the current and
the previous buffer at the end. -/
def pipelineReads (maxChunkSize i : Nat) (file : SourceHandle) :
    Nat → Nat → Nat → Nat → Bytes → Bytes → List Bytes × Bytes × Bytes
  | 0, _, _, _, current, previous => ([], current, previous)
  | fuel + 1, remainingSize, position, chunk, current, previous =>
    if remainingSize = 0 then ([previous], current, previous)
    else
      let chunkSize := if remainingSize < maxChunkSize then remainingSize else maxChunkSize
      let buffer := (readInto (io.read i chunk) file position (resize 0 chunkSize current)).1
      let (chunks, last) := pipelineReads maxChunkSize i file fuel (remainingSize - chunkSize)
        (position + chunkSize) (chunk + 1) previous buffer
      (previous :: chunks, last)

/-- The chunks of one file in the pipelined loop, with the two buffers at the end. -/
def pipelineFileReads (maxChunkSize i : Nat) (file : SourceHandle) (current previous : Bytes) :
    List Bytes × Bytes × Bytes :=
  let chunkSize := if file.size < maxChunkSize then file.size else maxChunkSize
  let buffer := (readInto (io.read i 0) file 0 (resize 0 chunkSize current)).1
  pipelineReads io maxChunkSize i file (file.size + 1) (file.size - chunkSize) chunkSize 1 previous
    buffer

/-- The chunks of the files in the pipelined loop. -/
def pipelineFileChunks (maxChunkSize : Nat) :
    List SourceHandle → Nat → Bytes → Bytes → List (List Bytes)
  | [], _, _, _ => []
  | file :: rest, i, current, previous =>
    let (chunks, last) := pipelineFileReads io maxChunkSize i file current previous
    chunks :: pipelineFileChunks maxChunkSize rest (i + 1) last.1 last.2

/-- The chunks of each file, as `migrate_using_abtio` has them in its buffers when it sends
them. -/
def fileChunks (abtio : Bool) (maxChunkSize : Nat) (opened : List SourceHandle) :
    List (List Bytes) :=
  let buffer := List.replicate maxChunkSize 0
  if abtio then pipelineFileChunks io maxChunkSize opened 0 buffer buffer
  else plainFileChunks io maxChunkSize opened 0 buffer

end Reads

/-! ### The chunks that are sent -/

section Sends
variable {σ : Type} (rpc : Rpc σ) (io : ClientIo) (operationId : Uuid)

/-- The chunks of the file `i` are sent, one behind the other from `offset` on. With `stop` the
first error ends it. -/
def sendChunks (stop : Bool) (i : Nat) : Nat → List Bytes → Ret × σ → Ret × σ
  | _, [], s => s
  | offset, d :: rest, s =>
    let s' := rpc.write operationId i offset d s.2
    if stop = true ∧ s'.1 ≠ .success then s' else sendChunks stop i (offset + d.length) rest s'

/-- The chunks of the files are sent, from the file `i` on. -/
def sendFiles (stop : Bool) : Nat → List (List Bytes) → Ret × σ → Ret × σ
  | _, [], s => s
  | i, chunks :: rest, s =>
    let s' := sendChunks rpc operationId stop i 0 chunks s
    if stop = true ∧ s'.1 ≠ .success then s' else sendFiles stop (i + 1) rest s'

variable {rpc io operationId} {maxChunkSize i : Nat} {file : SourceHandle}

theorem length_readInto (outcome : Io) (file : SourceHandle) (position : Nat) (buffer : Bytes) :
    (readInto outcome file position buffer).1.length = buffer.length := by
  unfold readInto
  cases file.data with
  | none => rfl
  | some b =>
      dsimp only
      rw [length_overlay_of_le 0 _ (Nat.zero_le _), List.length_take, List.length_drop]
      have hcount : (outcome.count (min buffer.length (b.val.length - position))).getD 0 ≤
          buffer.length := by
        cases outcome with
        | fail => exact Nat.zero_le _
        | full => exact Nat.min_le_left _ _
        | short n => exact (Nat.min_le_right _ _).trans (Nat.min_le_left _ _)
      omega

theorem plainChunks_eq (fuel remaining offset position chunk : Nat) (s : PlainState σ) :
    plainChunks rpc io operationId maxChunkSize i file fuel remaining offset position chunk s =
      ⟨(plainReads io maxChunkSize i file fuel remaining position chunk s.buffer).2,
        (sendChunks rpc operationId false i offset
          (plainReads io maxChunkSize i file fuel remaining position chunk s.buffer).1
          (s.ret, s.server)).1,
        (sendChunks rpc operationId false i offset
          (plainReads io maxChunkSize i file fuel remaining position chunk s.buffer).1
          (s.ret, s.server)).2⟩ := by
  induction fuel generalizing remaining offset position chunk s with
  | zero => rfl
  | succ fuel ih =>
      by_cases hdone : remaining = 0
      · simp [plainChunks, plainReads, sendChunks, hdone]
      · simp only [plainChunks, plainReads, hdone, ↓reduceIte, sendChunks, Bool.false_eq_true,
          false_and, length_readInto, length_resize]
        rw [ih]

theorem plainFiles_eq (opened : List SourceHandle) (i : Nat) (s : PlainState σ) :
    ((plainFiles rpc io operationId maxChunkSize opened i s).ret,
        (plainFiles rpc io operationId maxChunkSize opened i s).server) =
      sendFiles rpc operationId false i (plainFileChunks io maxChunkSize opened i s.buffer)
        (s.ret, s.server) := by
  induction opened generalizing i s with
  | nil => rfl
  | cons file rest ih =>
      simp only [plainFiles, plainFileChunks, sendFiles, Bool.false_eq_true, false_and, ↓reduceIte]
      rw [ih, plainChunks_eq]

/-- The pipelined loop sends its chunks up to the first error. Without an error it leaves the
buffers of the reads. -/
theorem pipelineChunks_eq (rpc : Rpc σ) (io : ClientIo) (operationId : Uuid) (i : Nat)
    (file : SourceHandle) (fuel remaining previousOffset chunk : Nat) (s : PipelineState σ)
    (hfuel : remaining < fuel) (hpos : 0 < maxChunkSize) :
    let offset := previousOffset + s.previousBuffer.length
    let reads := pipelineReads io maxChunkSize i file fuel remaining offset chunk s.currentBuffer
      s.previousBuffer
    let s' := pipelineChunks rpc io operationId maxChunkSize i file fuel remaining previousOffset
      offset chunk s
    (s'.ret, s'.server) =
        sendChunks rpc operationId true i previousOffset reads.1 (s.ret, s.server) ∧
      (s'.ret = .success → s'.currentBuffer = reads.2.1 ∧ s'.previousBuffer = reads.2.2) := by
  -- By induction on the fuel. The chunk in the previous buffer is the next one to be sent, and
  -- the bound on the fuel says that the loop does not run out of it.
  induction fuel generalizing remaining previousOffset chunk s with
  | zero => exact absurd hfuel (Nat.not_lt_zero _)
  | succ fuel ih =>
      dsimp only
      by_cases hdone : remaining = 0
      · simp [pipelineChunks, pipelineReads, sendChunks, hdone]
      · by_cases hret : (rpc.write operationId i previousOffset s.previousBuffer s.server).1 =
            .success
        · have hsize : remaining - (if remaining < maxChunkSize then remaining
              else maxChunkSize) < fuel := by
            split <;> omega
          -- The buffers change places behind an answer without an error.
          have hih := ih _ (previousOffset + s.previousBuffer.length) (chunk + 1)
            ⟨s.previousBuffer, (readInto (io.read i chunk) file
              (previousOffset + s.previousBuffer.length) (resize 0 (if remaining < maxChunkSize then
                remaining else maxChunkSize) s.currentBuffer)).1, .success,
              (rpc.write operationId i previousOffset s.previousBuffer s.server).2⟩ hsize
          simp only [length_readInto, length_resize] at hih
          simp only [pipelineChunks, pipelineReads, sendChunks, hdone, ↓reduceIte, hret, ne_eq,
            not_true_eq_false, and_false]
          rw [show rpc.write operationId i previousOffset s.previousBuffer s.server =
            (.success, (rpc.write operationId i previousOffset s.previousBuffer s.server).2) from
              Prod.ext hret rfl]
          exact hih
        · simp [pipelineChunks, pipelineReads, sendChunks, hdone, hret]

theorem pipelineFile_eq (rpc : Rpc σ) (io : ClientIo) (operationId : Uuid) (i : Nat)
    (file : SourceHandle) (s : PipelineState σ) (hpos : 0 < maxChunkSize) :
    let reads := pipelineFileReads io maxChunkSize i file s.currentBuffer s.previousBuffer
    let s' := pipelineFile rpc io operationId maxChunkSize i file s
    (s'.ret, s'.server) = sendChunks rpc operationId true i 0 reads.1 (s.ret, s.server) ∧
      (s'.ret = .success → s'.currentBuffer = reads.2.1 ∧ s'.previousBuffer = reads.2.2) := by
  have hsize : file.size - (if file.size < maxChunkSize then file.size else maxChunkSize) <
      file.size + 1 := by omega
  have hchunks := pipelineChunks_eq rpc io operationId i file (file.size + 1) _ 0 1
    { s with
      currentBuffer := s.previousBuffer
      previousBuffer := (readInto (io.read i 0) file 0 (resize 0
        (if file.size < maxChunkSize then file.size else maxChunkSize) s.currentBuffer)).1 }
    hsize hpos
  simp only [Nat.zero_add, length_readInto, length_resize] at hchunks
  exact hchunks

theorem pipelineFiles_eq (opened : List SourceHandle) (i : Nat) (s : PipelineState σ)
    (hpos : 0 < maxChunkSize) :
    ((pipelineFiles rpc io operationId maxChunkSize opened i s).ret,
        (pipelineFiles rpc io operationId maxChunkSize opened i s).server) =
      sendFiles rpc operationId true i
        (pipelineFileChunks io maxChunkSize opened i s.currentBuffer s.previousBuffer)
        (s.ret, s.server) := by
  induction opened generalizing i s with
  | nil => rfl
  | cons file rest ih =>
      obtain ⟨hsend, hbuffers⟩ := pipelineFile_eq rpc io operationId i file s hpos
      simp only [pipelineFiles, pipelineFileChunks, sendFiles]
      rw [← hsend]
      by_cases hok : (pipelineFile rpc io operationId maxChunkSize i file s).ret = .success
      · obtain ⟨hcurrent, hprevious⟩ := hbuffers hok
        rw [if_neg (not_not_intro hok), if_neg (fun h => h.2 hok), ih, hcurrent, hprevious]
      · rw [if_pos hok, if_pos ⟨trivial, hok⟩]

/-- Either loop sends the chunks that it reads. -/
theorem writeFiles_eq (rpc : Rpc σ) (io : ClientIo) (abtio : Bool) (operationId : Uuid)
    (opened : List SourceHandle) (st : σ) (hpos : 0 < maxChunkSize) :
    writeFiles rpc io abtio operationId maxChunkSize opened st =
      sendFiles rpc operationId abtio 0 (fileChunks io abtio maxChunkSize opened)
        (.success, st) := by
  cases abtio
  · exact plainFiles_eq opened 0 _
  · exact pipelineFiles_eq opened 0 _ hpos

end Sends

/-! ### The lengths of the chunks -/

section Lengths
variable {io : ClientIo} {maxChunkSize i : Nat} {file : SourceHandle}

theorem length_plainReads (hpos : 0 < maxChunkSize) (fuel remaining position chunk : Nat)
    (buffer : Bytes) (hfuel : remaining ≤ fuel) :
    (plainReads io maxChunkSize i file fuel remaining position chunk buffer).1.flatten.length =
      remaining := by
  induction fuel generalizing remaining position chunk buffer with
  | zero =>
      obtain rfl : remaining = 0 := by omega
      rfl
  | succ fuel ih =>
      by_cases hdone : remaining = 0
      · simp [plainReads, hdone]
      · simp only [plainReads, hdone, ↓reduceIte, List.flatten_cons, List.length_append,
          length_readInto, length_resize]
        rw [ih _ _ _ _ (by split <;> omega)]
        split <;> omega

theorem length_pipelineReads (hpos : 0 < maxChunkSize) (fuel remaining position chunk : Nat)
    (current previous : Bytes) (hfuel : remaining < fuel) :
    (pipelineReads io maxChunkSize i file fuel remaining position chunk current
      previous).1.flatten.length = previous.length + remaining := by
  induction fuel generalizing remaining position chunk current previous with
  | zero => exact absurd hfuel (Nat.not_lt_zero _)
  | succ fuel ih =>
      by_cases hdone : remaining = 0
      · simp [pipelineReads, hdone]
      · simp only [pipelineReads, hdone, ↓reduceIte, List.flatten_cons, List.length_append]
        rw [ih _ _ _ _ _ (by split <;> omega), length_readInto, length_resize]
        split <;> omega

theorem length_pipelineFileReads (hpos : 0 < maxChunkSize) (current previous : Bytes) :
    (pipelineFileReads io maxChunkSize i file current previous).1.flatten.length = file.size := by
  unfold pipelineFileReads
  dsimp only
  rw [length_pipelineReads hpos _ _ _ _ _ _ (by omega), length_readInto, length_resize]
  split <;> omega

theorem length_plainFileChunks (hpos : 0 < maxChunkSize) (opened : List SourceHandle) (i : Nat)
    (buffer : Bytes) :
    List.Forall₂ (fun chunks file => chunks.flatten.length = file.size)
      (plainFileChunks io maxChunkSize opened i buffer) opened := by
  induction opened generalizing i buffer with
  | nil => exact .nil
  | cons file rest ih =>
      exact .cons (length_plainReads hpos _ _ _ _ _ (Nat.le_refl _)) (ih _ _)

theorem length_pipelineFileChunks (hpos : 0 < maxChunkSize) (opened : List SourceHandle) (i : Nat)
    (current previous : Bytes) :
    List.Forall₂ (fun chunks file => chunks.flatten.length = file.size)
      (pipelineFileChunks io maxChunkSize opened i current previous) opened := by
  induction opened generalizing i current previous with
  | nil => exact .nil
  | cons file rest ih => exact .cons (length_pipelineFileReads hpos _ _) (ih _ _ _)

/-- The chunks of a file are as long as the file, whatever the reads return. -/
theorem length_fileChunks (io : ClientIo) (abtio : Bool) (hpos : 0 < maxChunkSize)
    (opened : List SourceHandle) :
    List.Forall₂ (fun chunks file => chunks.flatten.length = file.size)
      (fileChunks io abtio maxChunkSize opened) opened := by
  cases abtio
  · exact length_plainFileChunks hpos _ _ _
  · exact length_pipelineFileChunks hpos _ _ _ _

/-! ### Complete reads -/

/-- The handle of a regular file with its contents. -/
def SourceHandle.Shows (file : SourceHandle) (b : Bytes) : Prop :=
  file.size = b.length ∧ ∃ data, file.data = some data ∧ data.val = b

/-- A complete read inside the file replaces the buffer. -/
theorem readInto_full {file : SourceHandle} {b : Bytes} (h : file.Shows b) {position : Nat}
    {buffer : Bytes} (hroom : position + buffer.length ≤ b.length) :
    readInto .full file position buffer =
      ((b.drop position).take buffer.length, buffer.length) := by
  obtain ⟨-, data, hdata, rfl⟩ := h
  have hmin : min buffer.length (data.val.length - position) = buffer.length := by omega
  simp only [readInto, hdata, Io.count, Option.getD_some, hmin]
  rw [overlay_zero_of_length]
  rw [List.length_take, List.length_drop]
  omega

/-- A part of the file behind `position`, read into the whole buffer. -/
theorem readInto_piece {file : SourceHandle} {b : Bytes} (h : file.Shows b) (buffer : Bytes)
    {position size : Nat} (hroom : position + size ≤ b.length) :
    readInto .full file position (resize 0 size buffer) = ((b.drop position).take size, size) := by
  rw [readInto_full h (by rwa [length_resize]), length_resize]

/-- The chunk that a loop takes next, when `remaining` bytes are left behind `position`. -/
theorem chunk_step {b : Bytes} {position remaining size : Nat} {rest : List Bytes}
    (hrest : position + remaining = b.length) (hdone : remaining ≠ 0)
    (hsize : size = if remaining < maxChunkSize then remaining else maxChunkSize)
    (h : Pieces maxChunkSize (b.drop (position + size)) rest) :
    Pieces maxChunkSize (b.drop position) ((b.drop position).take size :: rest) := by
  have hlen : (b.drop position).length = remaining := by
    rw [List.length_drop]
    omega
  have hne : b.drop position ≠ [] := by
    intro hnil
    rw [hnil] at hlen
    exact hdone hlen.symm
  refine .step hne ?_ (by rwa [List.drop_drop])
  rw [hlen, hsize]
  split <;> omega

theorem plainReads_pieces (hread : ∀ i chunk, io.read i chunk = .full) (hpos : 0 < maxChunkSize)
    {b : Bytes} (h : file.Shows b) (fuel remaining position chunk : Nat) (buffer : Bytes)
    (hfuel : remaining ≤ fuel) (hrest : position + remaining = b.length) :
    Pieces maxChunkSize (b.drop position)
      (plainReads io maxChunkSize i file fuel remaining position chunk buffer).1 := by
  induction fuel generalizing remaining position chunk buffer with
  | zero =>
      rw [List.drop_of_length_le (by omega)]
      exact .nil
  | succ fuel ih =>
      by_cases hdone : remaining = 0
      · rw [List.drop_of_length_le (by omega)]
        simpa [plainReads, hdone] using Pieces.nil
      · obtain ⟨size, hsize⟩ : ∃ size,
            size = if remaining < maxChunkSize then remaining else maxChunkSize := ⟨_, rfl⟩
        have hle : size ≤ remaining ∧ size ≠ 0 := by
          rw [hsize]
          split <;> omega
        simp only [plainReads, hdone, ↓reduceIte, ← hsize, hread]
        rw [readInto_piece h buffer (by omega)]
        exact chunk_step hrest hdone hsize (ih _ _ _ _ (by omega) (by omega))

theorem pipelineReads_pieces (hread : ∀ i chunk, io.read i chunk = .full)
    (hpos : 0 < maxChunkSize) {b : Bytes} (h : file.Shows b)
    (fuel remaining position chunk : Nat) (current previous : Bytes) (hfuel : remaining < fuel)
    (hrest : position + remaining = b.length) :
    ∃ rest, (pipelineReads io maxChunkSize i file fuel remaining position chunk current
      previous).1 = previous :: rest ∧ Pieces maxChunkSize (b.drop position) rest := by
  induction fuel generalizing remaining position chunk current previous with
  | zero => exact absurd hfuel (Nat.not_lt_zero _)
  | succ fuel ih =>
      by_cases hdone : remaining = 0
      · refine ⟨[], by simp [pipelineReads, hdone], ?_⟩
        rw [List.drop_of_length_le (by omega)]
        exact .nil
      · obtain ⟨size, hsize⟩ : ∃ size,
            size = if remaining < maxChunkSize then remaining else maxChunkSize := ⟨_, rfl⟩
        have hle : size ≤ remaining ∧ size ≠ 0 := by
          rw [hsize]
          split <;> omega
        simp only [pipelineReads, hdone, ↓reduceIte, ← hsize, hread]
        rw [readInto_piece h current (by omega)]
        obtain ⟨rest, heq, hpieces⟩ := ih (remaining - size) (position + size) (chunk + 1) previous
          ((b.drop position).take size) (by omega) (by omega)
        refine ⟨_, rfl, ?_⟩
        rw [heq]
        exact chunk_step hrest hdone hsize hpieces

/-- The chunks of a file: its pieces, or one empty chunk of an empty file in the pipelined
loop. -/
def Chunked (abtio : Bool) (maxChunkSize : Nat) (b : Bytes) (chunks : List Bytes) : Prop :=
  if abtio = true ∧ b = [] then chunks = [[]] else Pieces maxChunkSize b chunks

theorem pipelineFileReads_chunked (hread : ∀ i chunk, io.read i chunk = .full)
    (hpos : 0 < maxChunkSize) {b : Bytes} (h : file.Shows b) (current previous : Bytes) :
    Chunked true maxChunkSize b (pipelineFileReads io maxChunkSize i file current previous).1 := by
  obtain ⟨size, hsize⟩ : ∃ size,
      size = if file.size < maxChunkSize then file.size else maxChunkSize := ⟨_, rfl⟩
  have hle : size ≤ file.size := by
    rw [hsize]
    split <;> omega
  have hlen := h.1
  obtain ⟨rest, heq, hpieces⟩ := pipelineReads_pieces (i := i) hread hpos h (file.size + 1)
    (file.size - size) size 1 previous (b.take size) (by omega) (by omega)
  have hchunks : (pipelineFileReads io maxChunkSize i file current previous).1 =
      b.take size :: rest := by
    simp only [pipelineFileReads, ← hsize, hread]
    rw [readInto_piece h current (by omega), List.drop_zero, heq]
  rw [hchunks]
  unfold Chunked
  split
  · rename_i hempty
    obtain rfl := hempty.2
    rw [List.drop_nil] at hpieces
    rw [hpieces.eq_nil, List.take_nil]
  · rename_i hne
    have hdone : file.size ≠ 0 := by
      intro hzero
      exact hne ⟨rfl, List.length_eq_zero_iff.mp (hlen ▸ hzero)⟩
    have hfirst := chunk_step (show 0 + file.size = b.length by omega) hdone hsize
      (by rwa [Nat.zero_add])
    simpa using hfirst

/-- When every read is complete, each file is sent in chunks. -/
theorem fileChunks_chunked (abtio : Bool) (hread : ∀ i chunk, io.read i chunk = .full)
    (hpos : 0 < maxChunkSize) {opened : List SourceHandle} {bs : List Bytes}
    (h : List.Forall₂ SourceHandle.Shows opened bs) :
    List.Forall₂ (Chunked abtio maxChunkSize) bs (fileChunks io abtio maxChunkSize opened) := by
  have hplain : ∀ i buffer, List.Forall₂ (Chunked false maxChunkSize) bs
      (plainFileChunks io maxChunkSize opened i buffer) := by
    induction h with
    | nil => exact fun _ _ => .nil
    | @cons file b rest bs hfile _ ih =>
        intro i buffer
        have hpieces := plainReads_pieces (i := i) hread hpos hfile file.size file.size 0 0 buffer
          (Nat.le_refl _) (by rw [Nat.zero_add, hfile.1])
        rw [List.drop_zero] at hpieces
        exact .cons (by simpa [Chunked] using hpieces) (ih _ _)
  have hpipeline : ∀ i current previous, List.Forall₂ (Chunked true maxChunkSize) bs
      (pipelineFileChunks io maxChunkSize opened i current previous) := by
    clear hplain
    induction h with
    | nil => exact fun _ _ _ => .nil
    | @cons file b rest bs hfile _ ih =>
        intro i current previous
        exact .cons (pipelineFileReads_chunked hread hpos hfile current previous) (ih _ _ _)
  cases abtio
  · exact hplain _ _
  · exact hpipeline _ _ _

theorem Chunked.flatten {abtio : Bool} {b : Bytes} {chunks : List Bytes}
    (h : Chunked abtio maxChunkSize b chunks) : chunks.flatten = b := by
  unfold Chunked at h
  split at h
  · rename_i hempty
    rw [h, hempty.2]
    rfl
  · exact h.flatten

theorem Chunked.length_le {abtio : Bool} {b : Bytes} {chunks : List Bytes}
    (h : Chunked abtio maxChunkSize b chunks) : ∀ d ∈ chunks, d.length ≤ maxChunkSize := by
  unfold Chunked at h
  split at h
  · simp [h]
  · exact h.length_le

theorem Chunked.length_eq {abtio : Bool} {b : Bytes} {chunks : List Bytes}
    (h : Chunked abtio maxChunkSize b chunks) {k : Nat} {d : Bytes} (hd : chunks[k]? = some d)
    (hk : k + 1 < chunks.length) : d.length = maxChunkSize := by
  unfold Chunked at h
  split at h
  · simp [h] at hk
  · exact h.length_eq hd hk

theorem Chunked.ne_nil {abtio : Bool} {b : Bytes} {chunks : List Bytes} (hpos : 0 < maxChunkSize)
    (hb : b ≠ []) (h : Chunked abtio maxChunkSize b chunks) : ∀ d ∈ chunks, d ≠ [] := by
  unfold Chunked at h
  rw [if_neg fun hempty => hb hempty.2] at h
  exact h.ne_nil hpos

theorem Chunked.length_of_empty {abtio : Bool} {b : Bytes} {chunks : List Bytes}
    (h : Chunked abtio maxChunkSize b chunks) (hb : b = []) :
    chunks.length = if abtio then 1 else 0 := by
  subst hb
  cases abtio with
  | false => rw [h.eq_nil]; rfl
  | true => rw [show chunks = [[]] from h]; rfl

/-- When every read is complete, the chunks of each file are its contents. -/
theorem fileChunks_full (abtio : Bool) (hread : ∀ i chunk, io.read i chunk = .full)
    (hpos : 0 < maxChunkSize) {opened : List SourceHandle} {bs : List Bytes}
    (h : List.Forall₂ SourceHandle.Shows opened bs) :
    (fileChunks io abtio maxChunkSize opened).map List.flatten = bs := by
  have hchunks := fileChunks_chunked abtio hread hpos h
  generalize fileChunks io abtio maxChunkSize opened = chunks at hchunks
  clear h
  induction hchunks with
  | nil => rfl
  | cons hfile _ ih => rw [List.map_cons, hfile.flatten, ih]

end Lengths

end Remi
