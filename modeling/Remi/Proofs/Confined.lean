import Remi.Proofs.Serve

/-!
# `Remi.Proofs.Confined`: no write lands outside its file

`migrate_write` compares the size of the file with `writeOffset + data.size()`, a sum of two
`size_t` values. The sum can wrap around. The data are shorter than `2^63` bytes, so the offset
is then at least `2^63`, which is negative as an `off_t`: the write fails, and the error stays
in the record (`wrapped_offset`, `serve_write_accepted`).

An operation that has had a request beyond one of its files is `Lost` from then on. The record
is gone or has an error, or a handler that does not go on holds its mutex. `serve_lost` shows
that no request changes this, and `end_lost` that `migrate_end` does not answer success.
-/

set_option autoImplicit false

namespace Remi

open Remi.Lib

/-- The request does not lie within the file, in unbounded integers. Nothing lies within a
file that is not there. -/
def Operation.Beyond (op : Operation) (fileNumber writeOffset : Nat) (data : Bytes) : Prop :=
  ∀ size, op.filesizes[fileNumber]? = some size → size < writeOffset + data.length

/-- From `s` to `s'`, nothing is written, or a first part of `data` in the room of the file. -/
def Operation.Confined (op : Operation) (fileNumber writeOffset : Nat) (data : Bytes)
    (s s' : Provider) : Prop :=
  s'.fs = s.fs ∨ ∃ fd size p n, op.fds[fileNumber]? = some fd ∧
    op.filesizes[fileNumber]? = some size ∧ s.descriptors fd = some p ∧ n ≤ data.length ∧
    writeOffset + n ≤ size ∧
    s'.fs = s.fs.modifyFile p fun b => overlay 0 b writeOffset (data.take n)

/-! ### The sum that wraps around -/

/-- A sum that wraps around has an offset that is negative as an `off_t`. -/
theorem wrapped_offset {offset len size : Nat} (hlen : len < offsetBound)
    (hsize : (offset + len) % sizeModulus ≤ size) (hbeyond : size < offset + len) :
    ¬ offset < offsetBound := by
  intro hoffset
  have hsum : offset + len < sizeModulus := by
    simp only [offsetBound, sizeModulus] at *
    omega
  rw [Nat.mod_eq_of_lt hsum] at hsize
  omega

/-- What a positioned write does: it writes a first part of its data, or fails. -/
theorem write_cases (t : Tid) (io : Io) (id : Uuid) (fd : Fd) (data : Bytes) (offset : Nat)
    (s : Provider) :
    (s.write t io id fd data offset).1 = -1 ∧ (s.write t io id fd data offset).2.fs = s.fs ∨
      ∃ p n, s.descriptors fd = some p ∧ n ≤ data.length ∧ offset < offsetBound ∧
        (s.write t io id fd data offset).1 = n ∧ (s.write t io id fd data offset).2.fs =
          s.fs.modifyFile p fun b => overlay 0 b offset (data.take n) := by
  unfold Provider.write
  split
  · rename_i n p hcount hp
    split
    · rename_i hok
      have hn : n ≤ data.length := by
        cases io with
        | fail => cases hcount
        | full => exact (Option.some.inj hcount).ge
        | short m => exact (Option.some.inj hcount) ▸ Nat.min_le_right _ _
      exact Or.inr ⟨p, n, hp, hn, hok.1, rfl, rfl⟩
    · exact Or.inl ⟨rfl, rfl⟩
  · exact Or.inl ⟨rfl, rfl⟩

/-! ### One request -/

section Write
variable (env : Env) (abtio : Bool) {s : Site} {id : Uuid} {op : Operation}
  {i offset size : Nat} {data : Bytes} {fd : Fd}

/-- A request that is refused takes the record away. -/
theorem serve_write_refused (hrecord : s.provider.opInProgress id = some op)
    (hmutex : op.mutex = none)
    (h : op.fds[i]? = none ∨ ∃ size, op.filesizes[i]? = some size ∧
      size < (offset + data.length) % sizeModulus) :
    (env.serve abtio (.write id i offset data) s).2.provider.opInProgress id = none ∧
      (env.serve abtio (.write id i offset data) s).2.provider.fs = s.provider.fs := by
  cases hfd : op.fds[i]? with
  | none =>
      simp [Env.serve, handle, migrateWrite, writeRefused, Site.receive, Prog.call, Prog.run,
        Env.step, Op.sysCall, exec, Provider.modifyOp, hrecord, hmutex, hfd]
  | some fd =>
      obtain ⟨size, hsize, hlt⟩ := h.resolve_left (by simp [hfd])
      obtain ⟨hi, hget⟩ := List.getElem?_eq_some_iff.mp hsize
      simp [Env.serve, handle, migrateWrite, writeRefused, Site.receive, Prog.call, Prog.run,
        Env.step, Op.sysCall, exec, Provider.modifyOp, hrecord, hmutex, hfd, hi, hget, hlt]

/-- The record after a chunk is written: it has an error unless all data were written. -/
theorem serve_write_accepted (hrecord : s.provider.opInProgress id = some op)
    (hmutex : op.mutex = none) (hfd : op.fds[i]? = some fd) (hsize : op.filesizes[i]? = some size)
    (hle : (offset + data.length) % sizeModulus ≤ size) :
    ∃ s₁ : Provider, s₁.fs = s.provider.fs ∧ s₁.descriptors = s.provider.descriptors ∧
      (env.serve abtio (.write id i offset data) s).2.provider.fs =
        (s₁.write s.tid (env.io .pwrite (s.made .pwrite)) id fd data offset).2.fs ∧
      ((s₁.write s.tid (env.io .pwrite (s.made .pwrite)) id fd data offset).1 ≠ data.length →
        (env.serve abtio (.write id i offset data) s).2.provider.opInProgress id =
          some { op with error := .errIo }) := by
  obtain ⟨hi, hget⟩ := List.getElem?_eq_some_iff.mp hsize
  -- The state in which the write is made: the mutex is taken, and the answer is sent.
  let locked := s.provider.modifyOp id { op with mutex := some s.tid }
  let answered : Provider :=
    { locked with responses := Function.update s.provider.responses s.tid (some (.write .success)) }
  have hkept : (answered.write s.tid (env.io .pwrite (s.made .pwrite)) id fd data
      offset).2.opInProgress = answered.opInProgress := by
    obtain ⟨fs, -, -, -, heq⟩ := write_effect s.tid (env.io .pwrite (s.made .pwrite)) id fd data
      offset answered
    rw [heq]
  refine ⟨answered, rfl, rfl, ?_⟩
  -- The record is what `modifyOp` leaves, with or without the error.
  by_cases hn : (answered.write s.tid (env.io .pwrite (s.made .pwrite)) id fd data offset).1 =
      data.length
  · simp only [answered, locked, Provider.modifyOp] at hn hkept ⊢
    cases abtio <;>
      simp [Env.serve, handle, migrateWrite, writeChunk, Site.receive, Prog.call, Prog.run,
        Env.step, Env.outcome, Op.sysCall, exec, Provider.modifyOp, hrecord, hmutex, hfd, hi, hget,
        Nat.not_lt.mpr hle, hn, hkept]
  · simp only [answered, locked, Provider.modifyOp] at hn hkept ⊢
    cases abtio <;>
      simp [Env.serve, handle, migrateWrite, writeChunk, Site.receive, Prog.call, Prog.run,
        Env.step, Env.outcome, Op.sysCall, exec, Provider.modifyOp, hrecord, hmutex, hfd, hi, hget,
        Nat.not_lt.mpr hle, hn, hkept]

end Write

/-! ### Operations that are lost -/

/-- A handler keeps what every operation keeps, for a record whose id has been drawn before:
no handler makes the record anew. -/
theorem serve_keeps_issued (env : Env) (abtio : Bool) (q : Request) {id : Uuid}
    {I : Ghost → Provider → Prop}
    (hI : ∀ (g : Ghost) t w o s r s', g.Valid → g.Allows o → (∀ op, o ≠ .insert id op) → I g s →
      exec t w o s = some (r, s') → I (g.after o r) s')
    {s : Site} (hid : s.provider.issuedTo id ≠ none) (hs : I (.init q) s.receive.provider) :
    (∃ g, I g (env.serve abtio q s).2.provider) ∧
      (env.serve abtio q s).2.provider.issuedTo id ≠ none := by
  -- A handler that has not drawn the id cannot insert a record for it.
  let J : Ghost → Site → Prop := fun g s' =>
    g.Valid ∧ g.drawn ≠ some id ∧ s'.provider.issuedTo id ≠ none ∧ I g s'.provider
  have hstep : ∀ g s₁ o r s₂, discipline.allows g o → J g s₁ →
      env.step s.tid o s₁ = some (r, s₂) → ∃ g', discipline.next g o r g' ∧ J g' s₂ := by
    rintro g s₁ o r s₂ hallow ⟨hvalid, hdrawn, hissued, hs₁⟩ hstep
    have hx := step_exec hstep
    have hinsert : ∀ op, o ≠ .insert id op := by
      rintro op rfl
      exact hdrawn hallow.2.1
    refine ⟨g.after o r, rfl, hvalid.after hallow _, ?_, ?_, hI g _ _ _ _ _ _ hvalid hallow
      hinsert hs₁ hx⟩
    · cases o with
      | newUuid =>
          intro hd
          obtain rfl := Option.some.inj hd
          exact hissued (exec_newUuid hx)
      | _ => exact hdrawn
    · rcases issuedTo_step hx id with hsame | ⟨-, -, hnone, -⟩
      · exact hsame ▸ hissued
      · exact absurd hnone hissued
  obtain ⟨g, ⟨-, -, hissued, hend⟩, -⟩ := (handle_follows abtio q).run (I := J)
    (s := s.receive) ⟨Ghost.valid_init q, nofun, hid, hs⟩ hstep
  exact ⟨⟨g, hend⟩, hissued⟩

/-- The record of `id`, when it is there, has the descriptors and sizes of `op`. -/
def Provider.Vectors (s : Provider) (id : Uuid) (op : Operation) : Prop :=
  ∀ op', s.opInProgress id = some op' → op'.fds = op.fds ∧ op'.filesizes = op.filesizes

/-- The record of `id`, when it is there, has an error or is locked by a handler that does not
go on. -/
def Provider.Lost (s : Provider) (id : Uuid) : Prop :=
  ∀ op, s.opInProgress id = some op → op.error ≠ .success ∨ op.mutex ≠ none

section Lost
variable (env : Env) (abtio : Bool) {s : Site} {id : Uuid} {op : Operation}

theorem serve_vectors (q : Request) (hid : s.provider.issuedTo id ≠ none)
    (hs : s.provider.Vectors id op) :
    (env.serve abtio q s).2.provider.Vectors id op ∧
      (env.serve abtio q s).2.provider.issuedTo id ≠ none := by
  have hkeep : ∀ (g : Ghost) t w o s₁ r s₂, g.Valid → g.Allows o →
      (∀ op, o ≠ .insert id op) → s₁.Vectors id op → exec t w o s₁ = some (r, s₂) →
      s₂.Vectors id op := by
    intro g t w o s₁ r s₂ _ _ hinsert hs₁ hx op' hop'
    rw [(exec_effect hx).record] at hop'
    cases hop : s₁.opInProgress id with
    | none =>
        rw [hop] at hop'
        exact absurd (Op.record_none hop') (hinsert op')
    | some op₁ =>
        rw [hop] at hop'
        rcases Op.record_fds hop' with ⟨hfds, hsizes⟩ | ho
        · rw [hfds, hsizes]
          exact hs₁ op₁ hop
        · exact absurd ho (hinsert op')
  obtain ⟨⟨-, hend⟩, hissued⟩ := serve_keeps_issued env abtio q
    (I := fun _ s' => s'.Vectors id op) hkeep hid hs
  exact ⟨hend, hissued⟩

/-- A handler that does not hold a locked record does not come to hold it. -/
theorem not_held {g : Ghost} {t : Tid} {w : Outcome} {o : Op} {r : Ans o} {s s' : Provider}
    (hvalid : g.Valid) (hallow : g.Allows o) (hx : exec t w o s = some (r, s'))
    (hop : s.opInProgress id = some op) (hmutex : op.mutex ≠ none)
    (h : ¬ (g.locked = true ∧ g.found = some id)) :
    ¬ ((g.after o r).locked = true ∧ (g.after o r).found = some id) := by
  rintro ⟨hlocked, hfound⟩
  cases o with
  | lock i =>
      have hid : i = id := Option.some.inj (hallow.1.symm.trans hfound)
      subst hid
      simp [exec, hop, hmutex] at hx
  | find i => exact (hvalid.locked hlocked).1 hallow.2.1
  | unlock i => cases hlocked
  | _ => exact h ⟨hlocked, hfound⟩

/-- Nothing helps a lost operation: no handler takes its mutex, so none releases it. -/
theorem serve_lost (q : Request) (hid : s.provider.issuedTo id ≠ none)
    (hs : s.provider.Lost id) :
    (env.serve abtio q s).2.provider.Lost id ∧
      (env.serve abtio q s).2.provider.issuedTo id ≠ none := by
  -- The mutex is held by nobody who would release it.
  let I : Ghost → Provider → Prop := fun g s' => ∀ op, s'.opInProgress id = some op →
    op.error ≠ .success ∨ op.mutex ≠ none ∧ ¬ (g.locked = true ∧ g.found = some id)
  have hinit : I (.init q) s.receive.provider := by
    intro op hop
    exact (hs op hop).imp_right fun hmutex => ⟨hmutex, nofun⟩
  have hkeep : ∀ (g : Ghost) t w o s₁ r s₂, g.Valid → g.Allows o →
      (∀ op, o ≠ .insert id op) → I g s₁ → exec t w o s₁ = some (r, s₂) →
      I (g.after o r) s₂ := by
    intro g t w o s₁ r s₂ hvalid hallow hinsert hs₁ hx op' hop'
    rw [(exec_effect hx).record] at hop'
    cases hop : s₁.opInProgress id with
    | none =>
        rw [hop] at hop'
        exact absurd (Op.record_none hop') (hinsert op')
    | some op =>
        rw [hop] at hop'
        -- An error is never taken back.
        rcases Op.record_error hop' with he | rfl | ho
        · rcases hs₁ op hop with herror | ⟨hmutex, hfree⟩
          · exact Or.inl (he ▸ herror)
          · rcases Op.record_mutex hop' with hm | ⟨rfl, -⟩ | ⟨rfl, -⟩ | ho
            · exact Or.inr ⟨hm ▸ hmutex, not_held hvalid hallow hx hop hmutex hfree⟩
            · simp [exec, hop, hmutex] at hx
            · exact absurd ⟨hallow.2.1, hallow.1⟩ hfree
            · exact absurd ho (hinsert op')
        · obtain ⟨-, -, -, -, -, -, herror⟩ := hallow
          exact Or.inl (herror ▸ Ret.errIo_ne_success)
        · exact absurd ho (hinsert op')
  obtain ⟨⟨g, hend⟩, hissued⟩ := serve_keeps_issued env abtio q hkeep hid hinit
  exact ⟨fun op hop => (hend op hop).imp_right And.left, hissued⟩

theorem serveAll_lost (later : List Request) (hid : s.provider.issuedTo id ≠ none)
    (hs : s.provider.Lost id) : (env.serveAll abtio later s).provider.Lost id := by
  induction later generalizing s with
  | nil => exact hs
  | cons q rest ih =>
      obtain ⟨hlost, hissued⟩ := serve_lost env abtio q hid hs
      exact ih hissued hlost

theorem serveAll_vectors (before : List Request) (hid : s.provider.issuedTo id ≠ none)
    (hs : s.provider.Vectors id op) :
    (env.serveAll abtio before s).provider.Vectors id op ∧
      (env.serveAll abtio before s).provider.issuedTo id ≠ none := by
  induction before generalizing s with
  | nil => exact ⟨hs, hid⟩
  | cons q rest ih =>
      obtain ⟨hvectors, hissued⟩ := serve_vectors env abtio q hid hs
      exact ih hissued hvectors

theorem end_lost (h : s.provider.Lost id) (status : Int) :
    (env.serve abtio (.end_ id) s).1 ≠ some (.end_ .success status) := by
  cases hrecord : s.provider.opInProgress id with
  | none =>
      simp [Env.serve, handle, migrateEnd, Site.receive, Prog.call, Prog.run, Env.step,
        Op.sysCall, exec, hrecord]
  | some op =>
      by_cases hmutex : op.mutex = none
      · have herror := (h op hrecord).resolve_right (not_not_intro hmutex)
        simp [Env.serve, handle, migrateEnd, endFailed, Site.receive, Prog.call, Prog.run,
          Env.step, Op.sysCall, exec, Provider.modifyOp, Provider.closeAll, hrecord, hmutex,
          herror]
      · -- The handler waits for the mutex.
        simp [Env.serve, handle, migrateEnd, Site.receive, Prog.call, Prog.run, Env.step,
          Op.sysCall, exec, hrecord, hmutex]

/-- A request writes in the room of its file only, and loses the operation when it lies beyond
it. -/
theorem serve_write (hs : s.provider.Vectors id op) (hlen : op.fds.length = op.filesizes.length)
    (i offset : Nat) {data : Bytes} (hdata : data.length < offsetBound) :
    op.Confined i offset data s.provider (env.serve abtio (.write id i offset data) s).2.provider ∧
      (op.Beyond i offset data →
        (env.serve abtio (.write id i offset data) s).2.provider.Lost id) := by
  cases hrecord : s.provider.opInProgress id with
  | none =>
      have hserve : (env.serve abtio (.write id i offset data) s).2.provider.fs = s.provider.fs ∧
          (env.serve abtio (.write id i offset data) s).2.provider.opInProgress id = none := by
        simp [Env.serve, handle, migrateWrite, Site.receive, Prog.call, Prog.run, Env.step,
          Op.sysCall, exec, hrecord]
      exact ⟨Or.inl hserve.1, fun _ op' hop' => by simp [hserve.2] at hop'⟩
  | some op' =>
      obtain ⟨hfds, hsizes⟩ := hs op' hrecord
      by_cases hmutex : op'.mutex = none
      · by_cases hok : op'.fds[i]? = none ∨ ∃ size, op'.filesizes[i]? = some size ∧
            size < (offset + data.length) % sizeModulus
        · obtain ⟨hgone, hfs⟩ := serve_write_refused env abtio hrecord hmutex hok
          exact ⟨Or.inl hfs, fun _ op₁ hop₁ => by simp [hgone] at hop₁⟩
        · obtain ⟨hfd, hle⟩ := not_or.mp hok
          obtain ⟨fd, hfd⟩ := Option.ne_none_iff_exists'.mp hfd
          have hi : i < op'.filesizes.length := by
            rw [hsizes, ← hlen, ← hfds]
            exact (List.getElem?_eq_some_iff.mp hfd).1
          obtain ⟨size, hsize⟩ : ∃ size, op'.filesizes[i]? = some size :=
            ⟨_, List.getElem?_eq_getElem hi⟩
          have hle' : (offset + data.length) % sizeModulus ≤ size :=
            Nat.not_lt.mp fun hlt => hle ⟨_, hsize, hlt⟩
          obtain ⟨s₁, hfs, hdescriptors, hwritten, herror⟩ :=
            serve_write_accepted env abtio hrecord hmutex hfd hsize hle'
          rcases write_cases s.tid (env.io .pwrite (s.made .pwrite)) id fd data offset s₁ with
            ⟨hresult, hsame⟩ | ⟨p, n, hp, hn, hoffset, hresult, hchanged⟩
          · -- The write fails.
            refine ⟨Or.inl (by rw [hwritten, hsame, hfs]), fun _ op₁ hop₁ => ?_⟩
            rw [herror (by rw [hresult]; simp)] at hop₁
            obtain rfl := Option.some.inj hop₁
            exact Or.inl Ret.errIo_ne_success
          · -- The offset is not negative, so the sum has not wrapped around.
            have hroom : offset + data.length ≤ size :=
              Nat.not_lt.mp fun hlt => wrapped_offset hdata hle' hlt hoffset
            rw [hsizes] at hsize
            rw [hfds] at hfd
            refine ⟨Or.inr ⟨fd, _, p, n, hfd, hsize, hdescriptors ▸ hp, hn, by omega, ?_⟩,
              fun hbeyond => absurd (hbeyond _ hsize) (Nat.not_lt.mpr hroom)⟩
            rw [hwritten, hchanged, hfs]
      · -- The handler waits for the mutex.
        have hserve : (env.serve abtio (.write id i offset data) s).2.provider.fs =
              s.provider.fs ∧
            (env.serve abtio (.write id i offset data) s).2.provider.opInProgress id =
              some op' := by
          simp [Env.serve, handle, migrateWrite, Site.receive, Prog.call, Prog.run, Env.step,
            Op.sysCall, exec, hrecord, hmutex]
        refine ⟨Or.inl hserve.1, fun _ op₁ hop₁ => ?_⟩
        obtain rfl := Option.some.inj (hserve.2.symm.trans hop₁)
        exact Or.inr hmutex

/-- Whatever requests a provider serves, one handler at a time: a write request puts bytes into
the room of its file only, and after a request that does not lie within its file no end of the
operation is answered with success. -/
theorem writes_confined
    (hrecord : s.provider.opInProgress id = some op) (hid : s.provider.issuedTo id ≠ none)
    (hlen : op.fds.length = op.filesizes.length) (before : List Request) (i offset : Nat)
    {data : Bytes} (hdata : data.length < offsetBound) :
    op.Confined i offset data (env.serveAll abtio before s).provider
        (env.serve abtio (.write id i offset data) (env.serveAll abtio before s)).2.provider ∧
      (op.Beyond i offset data → ∀ (later : List Request) (status : Int),
        (env.serve abtio (.end_ id) (env.serveAll abtio later
          (env.serve abtio (.write id i offset data) (env.serveAll abtio before s)).2)).1 ≠
            some (.end_ .success status)) := by
  have hvectors : s.provider.Vectors id op := fun op' hop' => by
    obtain rfl := Option.some.inj (hrecord.symm.trans hop')
    exact ⟨rfl, rfl⟩
  obtain ⟨hs, hid'⟩ := serveAll_vectors env abtio before hid hvectors
  obtain ⟨hconfined, hlost⟩ := serve_write env abtio hs hlen i offset hdata
  obtain ⟨-, hid''⟩ := serve_vectors env abtio (.write id i offset data) hid' hs
  refine ⟨hconfined, fun hbeyond later status => ?_⟩
  exact end_lost env abtio (serveAll_lost env abtio later hid'' (hlost hbeyond)) status

end Lost

/-- A provider that has started a migration of a file of two bytes. -/
private def startedOne : Site :=
  (Env.succeed.serve false (.start oneFile [2] [0]) (.init acceptAll .empty)).2

/-- The record of this migration. -/
private def oneOperation : Operation := ⟨oneFile, [2], [0], [⟨⟨0, 0⟩, 0⟩], .success, none, none⟩

/-- Two bytes at the last offset: the sum of offset and length is 1. -/
theorem writes_confined_wrapped :
    let request := Request.write 0 0 (sizeModulus - 1) [3, 4]
    oneOperation.Confined 0 (sizeModulus - 1) [3, 4] startedOne.provider
        (Env.succeed.serve false request startedOne).2.provider ∧
      (Env.succeed.serve false (.end_ 0) (Env.succeed.serve false request startedOne).2).1 ≠
        some (.end_ .success 0) := by
  have hbeyond : oneOperation.Beyond 0 (sizeModulus - 1) [3, 4] := fun size hsize => by
    obtain rfl : 2 = size := Option.some.inj hsize
    decide
  obtain ⟨hconfined, hend⟩ := writes_confined Env.succeed false (s := startedOne)
    (show startedOne.provider.opInProgress 0 = some oneOperation by decide +kernel)
    (by decide +kernel) rfl [] 0 (sizeModulus - 1) (show [3, 4].length < offsetBound by decide)
  exact ⟨hconfined, hend hbeyond [] 0⟩

end Remi
