import Remi.Client.Migrate

/-!
# `Remi.Proofs.Client`: the client, for any provider

What holds of `remi_fileset_migrate` whatever the provider answers. `Sources` lists the
files of a fileset as the first loop of either transfer finds them, and `Opens` says that
the loop gets through. `migrate_source_kept` says that nothing is removed unless
`migrate_end` has answered success. `migrate_fileset_iff` says when the caller's fileset is
left as it was.
-/

set_option autoImplicit false

namespace Remi

open Remi.Lib

/-! ### The local files -/

section Local
variable (io : ClientIo) (T : SourceTree) (root : Str)

/-- The local calls before `migrate_start` succeed for the files from number `i` on. -/
def OpensFrom : List Str → Nat → Prop
  | [], _ => True
  | filename :: rest, i =>
    io.openFails i = false ∧ io.fstatFails i = false ∧
      (T.openFile (root ++ filename)).isSome = true ∧ OpensFrom rest (i + 1)

instance decidableOpensFrom : (files : List Str) → (i : Nat) →
    Decidable (OpensFrom io T root files i)
  | [], _ => .isTrue trivial
  | _ :: rest, i =>
    haveI := decidableOpensFrom rest (i + 1)
    inferInstanceAs (Decidable (_ ∧ _ ∧ _ ∧ _))

/-- The files behind the names, as `open` and `fstat` show them. -/
def sources (files : List Str) : List SourceHandle :=
  files.filterMap fun filename => T.openFile (root ++ filename)

variable {io T root}

theorem sources_cons {filename : Str} {file : SourceHandle}
    (h : T.openFile (root ++ filename) = some file) (rest : List Str) :
    sources T root (filename :: rest) = file :: sources T root rest := by
  simp [sources, h]

theorem openSources_ok {files : List Str} {i : Nat} (h : OpensFrom io T root files i) :
    openSources io T root files i = .ok (sources T root files) := by
  induction files generalizing i with
  | nil => rfl
  | cons filename rest ih =>
      obtain ⟨hopen, hstat, hfile, hrest⟩ := h
      obtain ⟨file, hfile⟩ := Option.isSome_iff_exists.mp hfile
      simp [openSources, hopen, hstat, hfile, ih hrest, sources, Except.map]

theorem openSources_error {files : List Str} {i : Nat} (h : ¬ OpensFrom io T root files i) :
    ∃ ret, openSources io T root files i = .error ret ∧ ret ≠ .success := by
  induction files generalizing i with
  | nil => exact absurd trivial h
  | cons filename rest ih =>
      simp only [openSources]
      cases hopen : io.openFails i with
      | true => exact ⟨.errUnknownFile, by simp, by decide⟩
      | false =>
          cases hfile : T.openFile (root ++ filename) with
          | none => exact ⟨.errUnknownFile, by simp, by decide⟩
          | some file =>
              cases hstat : io.fstatFails i with
              | true => exact ⟨.errIo, by simp, by decide⟩
              | false =>
                  obtain ⟨ret, hret, hne⟩ := ih fun hrest =>
                    h ⟨hopen, hstat, by simp [hfile], hrest⟩
                  exact ⟨ret, by simp [hret, Except.map], hne⟩

/-- `mmap` does not return the null pointer. -/
theorem mmapFile_ne_null (fails : Bool) (mapped : Nat) (file : SourceHandle) :
    mmapFile fails mapped file ≠ .null := by
  unfold mmapFile
  split
  · split <;> simp
  · simp

theorem exposeFiles_ok {files : List Str} {i : Nat} (h : OpensFrom io T root files i)
    (e : Exposed) : ∃ e', exposeFiles io T root files i e = .ok e' ∧
      e'.theSizes = e.theSizes ++ (sources T root files).map (·.size) ∧
      e'.theModes = e.theModes ++ (sources T root files).map (·.mode) := by
  induction files generalizing i e with
  | nil => exact ⟨e, rfl, by simp [sources], by simp [sources]⟩
  | cons filename rest ih =>
      obtain ⟨hopen, hstat, hfile, hrest⟩ := h
      obtain ⟨file, hfile⟩ := Option.isSome_iff_exists.mp hfile
      simp only [exposeFiles, hopen, hfile, hstat, Bool.false_eq_true, ↓reduceIte,
        sources_cons hfile, List.map_cons]
      split
      · obtain ⟨e', he', hsizes, hmodes⟩ := ih hrest { e with
          theSizes := e.theSizes ++ [file.size], theModes := e.theModes ++ [file.mode] }
        exact ⟨e', he', by simp [hsizes], by simp [hmodes]⟩
      · split
        · rename_i hnull
          exact absurd hnull (mmapFile_ne_null _ _ _)
        · obtain ⟨e', he', hsizes, hmodes⟩ := ih hrest
            ⟨e.theData ++ [mmapFile (io.mmapFails i) e.mapped file],
              e.theSizes ++ [file.size], e.theModes ++ [file.mode]⟩
          exact ⟨e', he', by simp [hsizes], by simp [hmodes]⟩

theorem exposeFiles_error {files : List Str} {i : Nat} (h : ¬ OpensFrom io T root files i)
    (e : Exposed) : ∃ ret, exposeFiles io T root files i e = .error ret ∧ ret ≠ .success := by
  induction files generalizing i e with
  | nil => exact absurd trivial h
  | cons filename rest ih =>
      simp only [exposeFiles]
      cases hopen : io.openFails i with
      | true => exact ⟨.errUnknownFile, by simp, by decide⟩
      | false =>
          cases hfile : T.openFile (root ++ filename) with
          | none => exact ⟨.errUnknownFile, by simp, by decide⟩
          | some file =>
              cases hstat : io.fstatFails i with
              | true => exact ⟨.errIo, by simp, by decide⟩
              | false =>
                  have hrest : ¬ OpensFrom io T root rest (i + 1) := fun hrest =>
                    h ⟨hopen, hstat, by simp [hfile], hrest⟩
                  simp only [Bool.false_eq_true, ↓reduceIte]
                  split
                  · exact ih hrest _
                  · split
                    · exact ⟨.errAllocation, rfl, by decide⟩
                    · exact ih hrest _

end Local

/-- The local calls before `migrate_start` succeed for every file of the walkthrough. -/
def Opens (io : ClientIo) (T : SourceTree) (fileset : Fileset) : Prop :=
  OpensFrom io T fileset.root (remiFilesetWalkthrough T fileset).toList 0

instance (io : ClientIo) (T : SourceTree) (fileset : Fileset) :
    Decidable (Opens io T fileset) := by unfold Opens; infer_instance

/-- The files of the walkthrough, as the client opens them. -/
def Sources (T : SourceTree) (fileset : Fileset) : List SourceHandle :=
  sources T fileset.root (remiFilesetWalkthrough T fileset).toList

/-! ### How a transfer goes -/

section Transfer
variable {σ : Type} (rpc : Rpc σ) (io : ClientIo) (T : SourceTree) (ph : RemiProviderHandle)
  (mode : Int) (fileset : Fileset) (remoteRoot : Str) (status : Int) (st : σ)

/-- The fileset that the provider receives. -/
def sentFileset : Fileset :=
  fileset.swapOut (remiFilesetWalkthrough T fileset) (completeRoot remoteRoot)

/-- A transfer as `remi_fileset_migrate` calls it. -/
abbrev runTransfer : Migrated σ :=
  transfer rpc io T ph mode fileset (remiFilesetWalkthrough T fileset)
    (completeRoot remoteRoot) status st

variable {rpc io T ph mode fileset remoteRoot status st}

theorem putBack_swapOut (files : SortedSet Str) (root : Str) :
    (fileset.swapOut files root).putBack fileset = fileset := rfl

/-- A transfer whose local calls fail sends nothing. -/
theorem transfer_unopened (rpc : Rpc σ) (ph : RemiProviderHandle) (mode : Int)
    (remoteRoot : Str) (status : Int) (st : σ) (h : ¬ Opens io T fileset) :
    ∃ ret, ret ≠ .success ∧
      runTransfer rpc io T ph mode fileset remoteRoot status st = ⟨ret, status, fileset, st⟩ := by
  unfold runTransfer transfer
  split
  · obtain ⟨ret, hret, hne⟩ := exposeFiles_error h ⟨[], [], []⟩
    exact ⟨ret, hne, by simp [migrateUsingMmap, hret]⟩
  · obtain ⟨ret, hret, hne⟩ := openSources_error h
    exact ⟨ret, hne, by simp [migrateUsingAbtio, hret]⟩

theorem sendStart_server {swapped : Fileset} {theSizes theModes : List Nat}
    {rest : Uuid → σ → Migrated σ} {I : σ → Prop}
    (hstart : I (rpc.start swapped theSizes theModes st).2) (hrest : ∀ id s, I s →
      I (rest id s).server) :
    I (sendStart rpc swapped theSizes theModes status st rest).server := by
  unfold sendStart
  dsimp only
  split
  · exact hstart
  · exact hrest _ _ hstart

theorem sendStart_refused {swapped : Fileset} {theSizes theModes : List Nat}
    {rest : Uuid → σ → Migrated σ} (h : (rpc.start swapped theSizes theModes st).1.1 ≠ .success) :
    (sendStart rpc swapped theSizes theModes status st rest).ret =
        (rpc.start swapped theSizes theModes st).1.1 ∧
      (sendStart rpc swapped theSizes theModes status st rest).fileset = swapped := by
  unfold sendStart
  dsimp only
  rw [if_pos h]
  exact ⟨rfl, rfl⟩

/-- A provider that refuses gets no further RPC. -/
theorem sendStart_refused_eq {swapped : Fileset} {theSizes theModes : List Nat}
    (h : (rpc.start swapped theSizes theModes st).1.1 ≠ .success)
    (rest rest' : Uuid → σ → Migrated σ) :
    sendStart rpc swapped theSizes theModes status st rest =
      sendStart rpc swapped theSizes theModes status st rest' := by
  unfold sendStart
  dsimp only
  rw [if_pos h, if_pos h]

theorem sendStart_success {swapped : Fileset} {theSizes theModes : List Nat}
    {rest : Uuid → σ → Migrated σ} (h : (rpc.start swapped theSizes theModes st).1.1 = .success) :
    sendStart rpc swapped theSizes theModes status st rest =
      rest (rpc.start swapped theSizes theModes st).1.2.2
        (rpc.start swapped theSizes theModes st).2 := by
  unfold sendStart
  dsimp only
  rw [if_neg (not_not_intro h)]

/-- The RPCs behind `migrate_start` keep a property of the provider. -/
structure Rpc.Keeps (rpc : Rpc σ) (I : σ → Prop) : Prop where
  mmap : ∀ id bulk s, I s → I (rpc.mmap id bulk s).2
  write : ∀ id i offset data s, I s → I (rpc.write id i offset data s).2
  end_ : ∀ id s, I s → I (rpc.end_ id s).2

section Keeps
variable {I : σ → Prop} (io : ClientIo) (hI : rpc.Keeps I)
include hI

theorem plainChunks_keeps (id : Uuid) (maxChunkSize i : Nat) (file : SourceHandle)
    (fuel remaining offset position chunk : Nat) (s : PlainState σ) (hs : I s.server) :
    I (plainChunks rpc io id maxChunkSize i file fuel remaining offset position chunk
      s).server := by
  induction fuel generalizing remaining offset position chunk s with
  | zero => exact hs
  | succ fuel ih =>
      simp only [plainChunks]
      split
      · exact hs
      · exact ih _ _ _ _ _ (hI.write _ _ _ _ _ hs)

theorem plainFiles_keeps (id : Uuid) (maxChunkSize : Nat) (opened : List SourceHandle) (i : Nat)
    (s : PlainState σ) (hs : I s.server) :
    I (plainFiles rpc io id maxChunkSize opened i s).server := by
  induction opened generalizing i s with
  | nil => exact hs
  | cons file rest ih => exact ih _ _ (plainChunks_keeps io hI _ _ _ _ _ _ _ _ _ _ hs)

theorem pipelineChunks_keeps (id : Uuid) (maxChunkSize i : Nat) (file : SourceHandle)
    (fuel remaining previous current chunk : Nat) (s : PipelineState σ) (hs : I s.server) :
    I (pipelineChunks rpc io id maxChunkSize i file fuel remaining previous current chunk
      s).server := by
  induction fuel generalizing remaining previous current chunk s with
  | zero => exact hs
  | succ fuel ih =>
      have hsent := hI.write id i previous s.previousBuffer s.server hs
      simp only [pipelineChunks]
      split
      · exact hsent
      · split
        · exact hsent
        · exact ih _ _ _ _ _ hsent

theorem pipelineFiles_keeps (id : Uuid) (maxChunkSize : Nat) (opened : List SourceHandle)
    (i : Nat) (s : PipelineState σ) (hs : I s.server) :
    I (pipelineFiles rpc io id maxChunkSize opened i s).server := by
  induction opened generalizing i s with
  | nil => exact hs
  | cons file rest ih =>
      have hfile : I (pipelineFile rpc io id maxChunkSize i file s).server :=
        pipelineChunks_keeps io hI _ _ _ _ _ _ _ _ _ _ hs
      simp only [pipelineFiles]
      split
      · exact hfile
      · exact ih _ _ hfile

theorem writeFiles_keeps (abtio : Bool) (id : Uuid) (maxChunkSize : Nat)
    (opened : List SourceHandle) (s : σ) (hs : I s) :
    I (writeFiles rpc io abtio id maxChunkSize opened s).2 := by
  cases abtio
  · exact plainFiles_keeps io hI _ _ _ _ _ hs
  · exact pipelineFiles_keeps io hI _ _ _ _ _ hs

end Keeps

/-- What is known of the part of a transfer behind `migrate_start`: it leaves the fileset
`restored`, succeeds only when `migrate_end` does, and reaches the provider through the
RPCs. -/
structure Rest (rpc : Rpc σ) (restored : Fileset) (rest : Uuid → σ → Migrated σ) : Prop where
  fileset : ∀ id s, (rest id s).fileset = restored
  ret : ∀ id s, (rest id s).ret = .success → ∃ s', (rpc.end_ id s').1.1 = .success
  server : ∀ I, rpc.Keeps I → ∀ id s, I s → I (rest id s).server

theorem rest_sendMmap (restored : Fileset) (localBulk : Option Bulk) :
    Rest rpc restored (sendMmap rpc restored localBulk status) where
  fileset id s := by
    unfold sendMmap
    dsimp only
    split <;> rfl
  ret id s h := by
    unfold sendMmap at h
    dsimp only at h
    split at h
    · rename_i hfailed
      exact absurd h hfailed
    · exact ⟨_, h⟩
  server I hI id s hs := by
    have hsent := hI.mmap id localBulk s hs
    unfold sendMmap
    dsimp only
    split
    · exact hsent
    · exact hI.end_ _ _ hsent

theorem rest_sendWrites (abtio : Bool) (restored : Fileset) (opened : List SourceHandle) :
    Rest rpc restored (sendWrites rpc io abtio restored opened status) where
  fileset id s := by
    unfold sendWrites
    dsimp only
    split <;> rfl
  ret id s h := by
    unfold sendWrites at h
    dsimp only at h
    split at h
    · rename_i hfailed
      exact absurd h hfailed
    · exact ⟨_, h⟩
  server I hI id s hs := by
    have hsent := writeFiles_keeps io hI abtio id restored.xferSize.val opened s hs
    unfold sendWrites
    dsimp only
    split
    · exact hsent
    · exact hI.end_ _ _ hsent

/-- A transfer whose local calls succeed sends `migrate_start`. What follows depends on
`mode`. -/
theorem transfer_opened (rpc : Rpc σ) (ph : RemiProviderHandle) (mode : Int)
    (remoteRoot : Str) (status : Int) (st : σ) (h : Opens io T fileset) :
    ∃ rest, Rest rpc fileset rest ∧
      runTransfer rpc io T ph mode fileset remoteRoot status st =
        sendStart rpc (sentFileset T fileset remoteRoot) ((Sources T fileset).map (·.size))
          ((Sources T fileset).map (·.mode)) status st rest := by
  unfold runTransfer transfer Sources
  split
  · obtain ⟨e, he, hsizes, hmodes⟩ := exposeFiles_ok h ⟨[], [], []⟩
    simp only [List.nil_append] at hsizes hmodes
    exact ⟨_, rest_sendMmap _ _, by simp only [migrateUsingMmap, he, hsizes, hmodes]; rfl⟩
  · exact ⟨_, rest_sendWrites _ _ _, by simp only [migrateUsingAbtio, openSources_ok h]; rfl⟩

/-- The provider answers `migrate_start` with an error. -/
def Refused (rpc : Rpc σ) (T : SourceTree) (fileset : Fileset) (remoteRoot : Str) (st : σ) :
    Prop :=
  (rpc.start (sentFileset T fileset remoteRoot) ((Sources T fileset).map (·.size))
    ((Sources T fileset).map (·.mode)) st).1.1 ≠ .success

instance (rpc : Rpc σ) (T : SourceTree) (fileset : Fileset) (remoteRoot : Str) (st : σ) :
    Decidable (Refused rpc T fileset remoteRoot st) := by unfold Refused; infer_instance

theorem transfer_fileset (rpc : Rpc σ) (ph : RemiProviderHandle) (mode : Int)
    (remoteRoot : Str) (status : Int) (st : σ) (h : Opens io T fileset) :
    (runTransfer rpc io T ph mode fileset remoteRoot status st).fileset =
      if Refused rpc T fileset remoteRoot st then sentFileset T fileset remoteRoot
      else fileset := by
  obtain ⟨rest, hrest, heq⟩ := transfer_opened rpc ph mode remoteRoot status st h
  rw [heq]
  by_cases hrefused : Refused rpc T fileset remoteRoot st
  · rw [if_pos hrefused]
    exact (sendStart_refused hrefused).2
  · rw [if_neg hrefused, sendStart_success (not_not.mp hrefused)]
    exact hrest.fileset _ _

/-- A transfer succeeds only when the local calls do, and `migrate_start`. -/
theorem transfer_started
    (h : (runTransfer rpc io T ph mode fileset remoteRoot status st).ret = .success) :
    Opens io T fileset ∧ ¬ Refused rpc T fileset remoteRoot st := by
  by_cases hopens : Opens io T fileset
  · refine ⟨hopens, fun hrefused => ?_⟩
    obtain ⟨rest, -, heq⟩ := transfer_opened rpc ph mode remoteRoot status st hopens
    rw [heq, (sendStart_refused hrefused).1] at h
    exact hrefused h
  · obtain ⟨ret, hne, heq⟩ := transfer_unopened rpc ph mode remoteRoot status st hopens
    rw [heq] at h
    exact absurd h hne

/-- A transfer succeeds only when `migrate_end` answers success. -/
theorem transfer_success
    (h : (runTransfer rpc io T ph mode fileset remoteRoot status st).ret = .success) :
    ∃ id s, (rpc.end_ id s).1.1 = .success := by
  obtain ⟨hopens, hstart⟩ := transfer_started h
  obtain ⟨rest, hrest, heq⟩ := transfer_opened rpc ph mode remoteRoot status st hopens
  rw [heq, sendStart_success (not_not.mp hstart)] at h
  obtain ⟨s', hs'⟩ := hrest.ret _ _ h
  exact ⟨_, s', hs'⟩

end Transfer

/-! ### `remi_fileset_migrate` -/

section Migrate
variable {σ : Type} {rpc : Rpc σ} {io : ClientIo} {T : SourceTree}
  {ph : Option RemiProviderHandle} {fileset : Option Fileset} {remoteRoot : Option Str}
  {removeSource mode status : Int} {st : σ}

/-- With accepted arguments the fileset and the provider are left as by the transfer. -/
theorem migrate_accepted (rpc : Rpc σ) (io : ClientIo) (T : SourceTree)
    (handle : RemiProviderHandle) (fs : Fileset) {root : Str} (removeSource mode status : Int)
    (st : σ) (h : root.head? = some '/') :
    (remiFilesetMigrate rpc io T (some handle) (some fs) (some root) removeSource mode status
        st).fileset = some (runTransfer rpc io T handle mode fs root status st).fileset ∧
      (remiFilesetMigrate rpc io T (some handle) (some fs) (some root) removeSource mode status
        st).server = (runTransfer rpc io T handle mode fs root status st).server := by
  simp only [remiFilesetMigrate]
  rw [if_neg (not_not_intro h)]
  split
  · exact ⟨rfl, rfl⟩
  · split
    · exact ⟨rfl, rfl⟩
    · split <;> exact ⟨rfl, rfl⟩

/-- What a migration makes of its transfer. -/
theorem migrate_of_transfer {ph : RemiProviderHandle} {fileset : Fileset} {root : Str}
    {m : Migrated σ} (h : root.head? = some '/')
    (hm : runTransfer rpc io T ph mode fileset root status st = m) :
    remiFilesetMigrate rpc io T (some ph) (some fileset) (some root) removeSource mode status st =
      if m.ret ≠ .success then ⟨m.ret, m.status, some m.fileset, ⟨T, []⟩, m.server⟩
      else if m.status ≠ 0 then ⟨.errUser, m.status, some m.fileset, ⟨T, []⟩, m.server⟩
      else if removeSource = remiRemoveSource then
        ⟨.success, m.status, some m.fileset,
          removeSources T m.fileset (remiFilesetWalkthrough T fileset), m.server⟩
      else ⟨.success, m.status, some m.fileset, ⟨T, []⟩, m.server⟩ := by
  subst hm
  simp only [remiFilesetMigrate]
  rw [if_neg (not_not_intro h)]

/-- A migration succeeds only when its transfer does. -/
theorem migrate_success {ph : RemiProviderHandle} {fileset : Fileset} {root : Str}
    (h : (remiFilesetMigrate rpc io T (some ph) (some fileset) (some root) removeSource mode status
      st).ret = .success) :
    root.head? = some '/' ∧
      (runTransfer rpc io T ph mode fileset root status st).ret = .success := by
  by_cases hroot : root.head? = some '/'
  · refine ⟨hroot, ?_⟩
    rw [migrate_of_transfer hroot rfl] at h
    by_contra hfailed
    rw [if_pos hfailed] at h
    exact hfailed h
  · simp [remiFilesetMigrate, hroot] at h

variable (removeSource) in
/-- A migration that gets to its `migrate_end`, which answers the status `a`. -/
theorem migrate_finish {ph : RemiProviderHandle} {fileset : Fileset} {root : Str} {id : Uuid}
    {st' : σ} {a : Int} (h : root.head? = some '/')
    (hm : runTransfer rpc io T ph mode fileset root status st = finish rpc fileset id st')
    (hend : (rpc.end_ id st').1 = (if a = 0 then .success else .errUser, a)) :
    let r := remiFilesetMigrate rpc io T (some ph) (some fileset) (some root) removeSource mode
      status st
    r.ret = (if a = 0 then .success else .errUser) ∧ r.status = a ∧
      (a ≠ 0 → r.source = ⟨T, []⟩) ∧ r.server = (rpc.end_ id st').2 := by
  dsimp only
  rw [migrate_of_transfer h hm]
  by_cases ha : a = 0
  · subst ha
    have hret : (finish rpc fileset id st').ret = .success := congrArg Prod.fst hend
    have hstatus : (finish rpc fileset id st').status = 0 := by
      simp [finish, hend]
    rw [if_neg (not_not_intro hret), hstatus]
    simp only [ne_eq, not_true_eq_false, ↓reduceIte, false_implies, true_and]
    split <;> exact ⟨rfl, rfl, rfl⟩
  · have hret : (finish rpc fileset id st').ret = .errUser := by
      simp [finish, hend, ha]
    have hstatus : (finish rpc fileset id st').status = a := by
      simp [finish, hend, ha]
    rw [if_pos (by rw [hret]; decide), if_neg ha]
    exact ⟨hret, hstatus, fun _ => rfl, rfl⟩

/-- Nothing is removed, and no success is returned, unless `migrate_end` has answered
success. -/
theorem migrate_source_kept (h : ∀ id s, (rpc.end_ id s).1.1 ≠ .success) :
    (remiFilesetMigrate rpc io T ph fileset remoteRoot removeSource mode status st).ret ≠
        .success ∧
      (remiFilesetMigrate rpc io T ph fileset remoteRoot removeSource mode status st).source =
        ⟨T, []⟩ := by
  unfold remiFilesetMigrate
  split
  · rename_i handle fs root
    split
    · exact ⟨Ret.errInvalidArg_ne_success, rfl⟩
    · have hfailed : (runTransfer rpc io T handle mode fs root status st).ret ≠ .success := by
        intro hok
        obtain ⟨id, s, hend⟩ := transfer_success hok
        exact h id s hend
      dsimp only
      rw [if_pos hfailed]
      exact ⟨hfailed, rfl⟩
  · exact ⟨Ret.errInvalidArg_ne_success, rfl⟩

/-! ### The caller's fileset and the one that is sent -/

/-- The provider, with the filesets it has received in `migrate_start`. -/
def Rpc.recording (rpc : Rpc σ) : Rpc (List Fileset × σ) where
  start f theSizes theModes s :=
    let (answer, s') := rpc.start f theSizes theModes s.2
    (answer, (s.1 ++ [f], s'))
  mmap id bulk s :=
    let (answer, s') := rpc.mmap id bulk s.2
    (answer, (s.1, s'))
  write id i offset data s :=
    let (answer, s') := rpc.write id i offset data s.2
    (answer, (s.1, s'))
  end_ id s :=
    let (answer, s') := rpc.end_ id s.2
    (answer, (s.1, s'))

/-- The fileset `received` describes the files of `fileset` below the remote root. -/
structure Received (T : SourceTree) (fileset : Fileset) (remoteRoot : Str)
    (received : Fileset) : Prop where
  root : received.root = completeRoot remoteRoot
  slash : received.root.getLast? = some '/'
  files : received.files = remiFilesetWalkthrough T fileset
  directories : received.directories = .empty
  className : received.className = fileset.className
  providerId : received.providerId = fileset.providerId
  metadata : received.metadata = fileset.metadata
  xferSize : received.xferSize = fileset.xferSize

theorem received_sentFileset (T : SourceTree) (fileset : Fileset) (remoteRoot : Str) :
    Received T fileset remoteRoot (sentFileset T fileset remoteRoot) where
  root := rfl
  slash := by
    simp only [sentFileset, Fileset.swapOut, completeRoot]
    split
    · simp
    · rename_i h
      exact not_not.mp h
  files := rfl
  directories := rfl
  className := rfl
  providerId := rfl
  metadata := rfl
  xferSize := rfl

/-- What a migration promises of filesets: the caller's is what it was at the call, and the
provider has received the files of the walkthrough below the remote root. -/
def FilesetsRight (T : SourceTree) (fileset : Option Fileset) (remoteRoot : Option Str)
    (result : MigrateResult (List Fileset × σ)) : Prop :=
  result.fileset = fileset ∧ ∀ received ∈ result.server.1, ∃ fs root, fileset = some fs ∧
    remoteRoot = some root ∧ Received T fs root received

theorem recording_keeps (rpc : Rpc σ) (log : List Fileset) :
    rpc.recording.Keeps fun s => s.1 = log where
  mmap _ _ _ hs := hs
  write _ _ _ _ _ hs := hs
  end_ _ _ hs := hs

/-- A transfer sends `migrate_start` at most once, with the fileset `sentFileset`. -/
theorem transfer_recorded {handle : RemiProviderHandle} {fs : Fileset} {root : Str} :
    ∀ received ∈ (runTransfer rpc.recording io T handle mode fs root status ([], st)).server.1,
      received = sentFileset T fs root := by
  by_cases hopens : Opens io T fs
  · obtain ⟨rest, hrest, heq⟩ := transfer_opened rpc.recording handle mode root status
      ([], st) hopens
    have hlog : (runTransfer rpc.recording io T handle mode fs root status
        ([], st)).server.1 = [sentFileset T fs root] := by
      rw [heq]
      refine sendStart_server (I := fun s => s.1 = [sentFileset T fs root]) ?_
        (hrest.server _ (recording_keeps rpc _))
      rfl
    rw [hlog]
    exact fun received h => List.mem_singleton.mp h
  · obtain ⟨ret, -, heq⟩ := transfer_unopened rpc.recording handle mode root status ([], st)
      hopens
    rw [heq]
    exact fun received h => absurd h List.not_mem_nil

/-- The fileset is the caller's again unless `migrate_start` is sent and answered with an
error. In that case it is so only if the fileset that was sent is the caller's own. -/
theorem migrate_fileset_iff {σ : Type} (rpc : Rpc σ) (io : ClientIo) (T : SourceTree)
    (ph : Option RemiProviderHandle) (fileset : Option Fileset) (remoteRoot : Option Str)
    (removeSource mode status : Int) (st : σ) :
    FilesetsRight T fileset remoteRoot (remiFilesetMigrate rpc.recording io T ph fileset
        remoteRoot removeSource mode status ([], st)) ↔
      ∀ handle fs root, ph = some handle → fileset = some fs → remoteRoot = some root →
        root.head? = some '/' → Opens io T fs → Refused rpc T fs root st →
        sentFileset T fs root = fs := by
  -- Refused arguments: nothing is sent, and the fileset is not touched.
  have hrejected : ∀ result : MigrateResult (List Fileset × σ),
      result.fileset = fileset → result.server.1 = [] →
      FilesetsRight T fileset remoteRoot result := by
    intro result hfileset hserver
    exact ⟨hfileset, by rw [hserver]; exact fun _ h => absurd h List.not_mem_nil⟩
  match ph, fileset, remoteRoot with
  | none, _, _ => exact iff_of_true (hrejected _ rfl rfl) (fun _ _ _ h => by cases h)
  | some _, none, _ => exact iff_of_true (hrejected _ rfl rfl) (fun _ _ _ _ h => by cases h)
  | some _, some _, none =>
      exact iff_of_true (hrejected _ rfl rfl) (fun _ _ _ _ _ h => by cases h)
  | some handle, some fs, some root =>
      by_cases hroot : root.head? = some '/'
      · obtain ⟨hfileset, hserver⟩ := migrate_accepted rpc.recording io T handle fs removeSource
          mode status ([], st) hroot
        unfold FilesetsRight
        rw [hfileset, hserver]
        have hreceived : ∀ received ∈ (runTransfer rpc.recording io T handle mode fs root status
            ([], st)).server.1, ∃ fs₁ root₁, some fs = some fs₁ ∧ some root = some root₁ ∧
              Received T fs₁ root₁ received := by
          intro received h
          rw [transfer_recorded received h]
          exact ⟨fs, root, rfl, rfl, received_sentFileset T fs root⟩
        constructor
        · rintro ⟨hsame, -⟩ handle' fs' root' h₁ h₂ h₃ - hopens hrefused
          obtain rfl := Option.some.inj h₂
          obtain rfl := Option.some.inj h₃
          have hrefused : Refused rpc.recording T fs root ([], st) := hrefused
          rw [transfer_fileset rpc.recording handle mode root status ([], st) hopens,
            if_pos hrefused] at hsame
          exact Option.some.inj hsame
        · intro h
          refine ⟨congrArg some ?_, hreceived⟩
          -- When a file cannot be opened nothing is sent.
          by_cases hopens : Opens io T fs
          · rw [transfer_fileset rpc.recording handle mode root status ([], st) hopens]
            split
            · rename_i hrefused
              exact h handle fs root rfl rfl rfl hroot hopens hrefused
            · rfl
          · obtain ⟨ret, -, heq⟩ := transfer_unopened rpc.recording handle mode root status
              ([], st) hopens
            rw [heq]
      · refine iff_of_true (hrejected _ ?_ ?_) ?_
        · simp only [remiFilesetMigrate, if_pos hroot]
        · simp only [remiFilesetMigrate, if_pos hroot]
        · intro _ _ root' _ _ h hroot'
          obtain rfl := Option.some.inj h
          exact absurd hroot' hroot

end Migrate

/-- A provider that refuses every migration. -/
private def refusing : Rpc Unit where
  start _ _ _ _ := ((.errFileExists, 1, 0), ())
  mmap _ _ _ := (.errInvalidOpid, ())
  write _ _ _ _ _ := (.errInvalidOpid, ())
  end_ _ _ := ((.errInvalidOpid, 0), ())

/-- After a refusal the caller's fileset has the remote root. -/
theorem fileset_lost_when_refused :
    ¬ FilesetsRight .empty (some ⟨['c'], 0, ['/', 'a', '/'], .empty, .empty, .empty,
        defaultXferSize⟩) (some ['/', 'b', '/'])
      (remiFilesetMigrate refusing.recording ⟨fun _ => false, fun _ => false, fun _ => false,
        fun _ _ => .full⟩ .empty (some ⟨false⟩) (some ⟨['c'], 0, ['/', 'a', '/'], .empty, .empty,
        .empty, defaultXferSize⟩) (some ['/', 'b', '/']) remiKeepSource remiUseMmap 0
        ([], ())) := by
  intro h
  exact absurd (congrArg (Option.map Fileset.root) h.1) (by decide)

end Remi
