import Remi.Proofs.AsAlone
import Remi.Proofs.Calls
import Remi.Proofs.Copy
import Remi.Proofs.Forgotten
import Remi.Server.Scripted

/-!
# `Remi.Proofs.AmongOthers`: `remi_fileset_migrate` among other clients

A client that runs `remi_fileset_migrate`, call by call, gets the same answers from a provider of
its own as among others (`Remi.Proofs.AsAlone`). So it makes the same calls and returns the same.
-/

set_option autoImplicit false

namespace Remi

open Remi.Lib

/-! ### Two providers with the same answers -/

section Agree
variable {σ τ : Type}

/-- The process with another provider. -/
def ClientProcess.withServer (s : ClientProcess σ) (server : τ) : ClientProcess τ where
  server := server
  files := s.files
  isOpen := s.isOpen
  position := s.position
  reads := s.reads
  segments := s.segments
  buffer := s.buffer
  pending := s.pending
  closes := s.closes
  mmaps := s.mmaps
  unmaps := s.unmaps

theorem shows_withServer (s : ClientProcess σ) (server : τ) (a : SourceAddr) :
    (s.withServer server).shows a = s.shows a := by
  cases a <;> rfl

theorem mapSegment_withServer (io : ClientIo) (fd : SourceFd) (s : ClientProcess σ) (server : τ) :
    mapSegment io fd (s.withServer server) =
      ((mapSegment io fd s).1, (mapSegment io fd s).2.withServer server) := by
  cases hfile : s.files[fd]? with
  | none =>
      have hfile' : (s.withServer server).files[fd]? = none := hfile
      simp only [mapSegment, hfile, hfile']
      rfl
  | some file =>
      have hfile' : (s.withServer server).files[fd]? = some file := hfile
      cases hopen : s.isOpen fd with
      | false =>
          have hopen' : (s.withServer server).isOpen fd = false := hopen
          simp only [mapSegment, hfile, hfile', hopen, hopen', Bool.false_eq_true, ↓reduceIte]
          rfl
      | true =>
          have hopen' : (s.withServer server).isOpen fd = true := hopen
          have hsegments : (s.withServer server).segments = s.segments := rfl
          simp only [mapSegment, hfile, hfile', hopen, hopen', hsegments, ↓reduceIte]
          cases mmapFile (io.mmapFails fd) (s.segments.map List.length).sum file <;> rfl

theorem readAt_withServer (io : ClientIo) (fd : SourceFd) (b : Block) (offset : Nat)
    (s : ClientProcess σ) (server : τ) :
    (s.withServer server).readAt io fd b offset =
      ((s.readAt io fd b offset).1.withServer server, (s.readAt io fd b offset).2) := by
  cases hfile : s.files[fd]? with
  | none =>
      have hfile' : (s.withServer server).files[fd]? = none := hfile
      simp only [ClientProcess.readAt, hfile, hfile']
  | some file =>
      have hfile' : (s.withServer server).files[fd]? = some file := hfile
      cases hopen : s.isOpen fd with
      | false =>
          have hopen' : (s.withServer server).isOpen fd = false := hopen
          simp only [ClientProcess.readAt, hfile, hfile', hopen, hopen', Bool.false_eq_true,
            ↓reduceIte]
      | true =>
          have hopen' : (s.withServer server).isOpen fd = true := hopen
          simp only [ClientProcess.readAt, hfile, hfile', hopen, hopen', ↓reduceIte]
          rfl

theorem mapSegment_server (io : ClientIo) (fd : SourceFd) (s : ClientProcess σ) :
    (mapSegment io fd s).2.server = s.server := by
  unfold mapSegment
  dsimp only
  split
  · split
    · split <;> rfl
    · rfl
  · rfl

theorem readAt_server (io : ClientIo) (fd : SourceFd) (b : Block) (offset : Nat)
    (s : ClientProcess σ) : (s.readAt io fd b offset).1.server = s.server := by
  unfold ClientProcess.readAt
  split
  · split <;> rfl
  · rfl

variable {send₁ : Request → σ → Option Response × σ} {send₂ : Request → τ → Option Response × τ}
  {L : σ → Prop} {R : σ → τ → Prop} {io : ClientIo} {T : SourceTree}

/-- One call, with the same answer from both providers. -/
theorem perform_agrees
    (hR : ∀ q st₁ st₂, R st₁ st₂ → L (send₁ q st₁).2 →
      (send₂ q st₂).1 = (send₁ q st₁).1 ∧ R (send₁ q st₁).2 (send₂ q st₂).2)
    {c : Call} {r : Reply c} {s s' : ClientProcess σ} {server : τ} (hs : R s.server server)
    (hx : perform (sendRpc send₁) io T c s = some (r, s')) (hL : L s'.server) :
    ∃ server', perform (sendRpc send₂) io T c (s.withServer server) =
      some (r, s'.withServer server') ∧ R s'.server server' := by
  cases c with
  | open_ path =>
      cases hfile : if io.openFails s.files.length then none else T.openFile path with
      | none =>
          have hfile' : (if io.openFails (s.withServer server).files.length then none
            else T.openFile path) = none := hfile
          simp only [perform, hfile, Option.some.injEq, Prod.mk.injEq] at hx
          obtain ⟨rfl, rfl⟩ := hx
          exact ⟨server, by simp only [perform, hfile'], hs⟩
      | some file =>
          have hfile' : (if io.openFails (s.withServer server).files.length then none
            else T.openFile path) = some file := hfile
          simp only [perform, hfile, Option.some.injEq, Prod.mk.injEq] at hx
          obtain ⟨rfl, rfl⟩ := hx
          exact ⟨server, by simp only [perform, hfile']; rfl, hs⟩
  | mmap fd size =>
      obtain ⟨rfl, rfl⟩ := Prod.mk.inj (Option.some.inj hx)
      refine ⟨server, congrArg some (mapSegment_withServer io fd s server), ?_⟩
      show R (mapSegment io fd s).2.server server
      rw [mapSegment_server]
      exact hs
  | read fd b =>
      obtain ⟨rfl, rfl⟩ := Prod.mk.inj (Option.some.inj hx)
      refine ⟨server, ?_, ?_⟩
      · have hread := readAt_withServer io fd b (s.position fd) s server
        have hposition : (s.withServer server).position = s.position := rfl
        simp only [perform, hposition, hread]
        rfl
      · show R (s.readAt io fd b (s.position fd)).1.server server
        rw [readAt_server]
        exact hs
  | pread fd b offset =>
      obtain ⟨rfl, rfl⟩ := Prod.mk.inj (Option.some.inj hx)
      refine ⟨server, by simp only [perform, readAt_withServer], ?_⟩
      show R (s.readAt io fd b offset).1.server server
      rw [readAt_server]
      exact hs
  | wait =>
      obtain ⟨request, hpending, hx⟩ := Option.map_eq_some_iff.mp hx
      obtain ⟨rfl, rfl⟩ := Prod.mk.inj hx
      refine ⟨server, ?_, hs⟩
      have hpending' : (s.withServer server).pending = some request := hpending
      simp only [perform, hpending', Option.map_some]
      rfl
  | migrateStart fileset theSizes theModes =>
      obtain ⟨rfl, rfl⟩ := Prod.mk.inj (Option.some.inj hx)
      obtain ⟨hanswer, hnext⟩ := hR (.start fileset theSizes theModes) _ _ hs hL
      refine ⟨_, ?_, hnext⟩
      show some (startAnswer (send₂ (.start fileset theSizes theModes) server).1, _) = _
      rw [hanswer]
      rfl
  | migrateMmap id localBulk =>
      obtain ⟨rfl, rfl⟩ := Prod.mk.inj (Option.some.inj hx)
      have hshows : localBulk.map (List.map (s.withServer server).shows) =
          localBulk.map (List.map s.shows) := by
        rw [show (s.withServer server).shows = s.shows from funext (shows_withServer s server)]
      obtain ⟨hanswer, hnext⟩ := hR (.mmap id (localBulk.map (List.map s.shows))) _ _ hs hL
      refine ⟨_, ?_, hnext⟩
      simp only [perform, hshows]
      show some (mmapAnswer (send₂ (.mmap id (localBulk.map (List.map s.shows))) server).1, _) = _
      rw [hanswer]
      rfl
  | migrateWrite id i offset b =>
      obtain ⟨rfl, rfl⟩ := Prod.mk.inj (Option.some.inj hx)
      obtain ⟨hanswer, hnext⟩ := hR (.write id i offset (s.buffer b)) _ _ hs hL
      refine ⟨_, ?_, hnext⟩
      show some (writeAnswer (send₂ (.write id i offset (s.buffer b)) server).1, _) = _
      rw [hanswer]
      rfl
  | migrateWriteAsync id i offset b =>
      obtain ⟨rfl, rfl⟩ := Prod.mk.inj (Option.some.inj hx)
      obtain ⟨hanswer, hnext⟩ := hR (.write id i offset (s.buffer b)) _ _ hs hL
      refine ⟨(send₂ (.write id i offset (s.buffer b)) server).2, ?_, hnext⟩
      show some ((), ({ s.withServer server with
        server := (send₂ (.write id i offset (s.buffer b)) server).2
        pending := some (b, writeAnswer (send₂ (.write id i offset (s.buffer b)) server).1) } :
          ClientProcess τ)) = _
      rw [hanswer]
      rfl
  | migrateEnd id =>
      obtain ⟨rfl, rfl⟩ := Prod.mk.inj (Option.some.inj hx)
      obtain ⟨hanswer, hnext⟩ := hR (.end_ id) _ _ hs hL
      refine ⟨_, ?_, hnext⟩
      show some (endAnswer (send₂ (.end_ id) server).1, _) = _
      rw [hanswer]
      rfl
  | fstat | close | munmap | expose | resize =>
      obtain ⟨rfl, rfl⟩ := Prod.mk.inj (Option.some.inj hx)
      exact ⟨server, rfl, hs⟩

/-- Every call sends one request, or none. -/
theorem perform_backward (hL : ∀ q st, L (send₁ q st).2 → L st) {c : Call} {r : Reply c}
    {s s' : ClientProcess σ} (hx : perform (sendRpc send₁) io T c s = some (r, s'))
    (h : L s'.server) : L s.server := by
  cases c with
  | open_ path =>
      simp only [perform] at hx
      split at hx <;> obtain ⟨-, rfl⟩ := Prod.mk.inj (Option.some.inj hx) <;> exact h
  | mmap fd size =>
      obtain ⟨-, rfl⟩ := Prod.mk.inj (Option.some.inj hx)
      have h : L (mapSegment io fd s).2.server := h
      rwa [mapSegment_server] at h
  | read fd b =>
      obtain ⟨-, rfl⟩ := Prod.mk.inj (Option.some.inj hx)
      have h : L (s.readAt io fd b (s.position fd)).1.server := h
      rwa [readAt_server] at h
  | pread fd b offset =>
      obtain ⟨-, rfl⟩ := Prod.mk.inj (Option.some.inj hx)
      have h : L (s.readAt io fd b offset).1.server := h
      rwa [readAt_server] at h
  | wait =>
      obtain ⟨request, -, hx⟩ := Option.map_eq_some_iff.mp hx
      obtain ⟨-, rfl⟩ := Prod.mk.inj hx
      exact h
  | migrateStart | migrateMmap | migrateWrite | migrateWriteAsync | migrateEnd =>
      obtain ⟨-, rfl⟩ := Prod.mk.inj (Option.some.inj hx)
      exact hL _ _ h
  | fstat | close | munmap | expose | resize =>
      obtain ⟨-, rfl⟩ := Prod.mk.inj (Option.some.inj hx)
      exact h

/-- A transfer with the same answers returns the same. -/
theorem transfer_agrees (hL : ∀ q st, L (send₁ q st).2 → L st)
    (hR : ∀ q st₁ st₂, R st₁ st₂ → L (send₁ q st₁).2 →
      (send₂ q st₂).1 = (send₁ q st₁).1 ∧ R (send₁ q st₁).2 (send₂ q st₂).2)
    (ph : RemiProviderHandle) (mode : Int) (fileset : Fileset) (files : SortedSet Str)
    (remoteRoot : Str) (status : Int) {st₁ : σ} {st₂ : τ} (hst : R st₁ st₂)
    (hend : L (transfer (sendRpc send₁) io T ph mode fileset files remoteRoot status st₁).server) :
    let m₁ := transfer (sendRpc send₁) io T ph mode fileset files remoteRoot status st₁
    let m₂ := transfer (sendRpc send₂) io T ph mode fileset files remoteRoot status st₂
    m₂.ret = m₁.ret ∧ m₂.status = m₁.status ∧ m₂.fileset = m₁.fileset ∧
      R m₁.server m₂.server := by
  obtain ⟨s₁, hrun₁, hserver₁⟩ := transfer_calls (sendRpc send₁) io T ph mode fileset files
    remoteRoot status st₁
  obtain ⟨s₂, hrun₂, hserver₂⟩ := transfer_calls (sendRpc send₂) io T ph mode fileset files
    remoteRoot status st₂
  rw [← hserver₁] at hend
  -- The calls are the same, so that the two runs go side by side.
  have hstep : ∀ c (s : ClientProcess σ) (t : ClientProcess τ) r s',
      (∃ server, t = s.withServer server ∧ R s.server server) →
      perform (sendRpc send₁) io T c s = some (r, s') → L s'.server →
      ∃ t', perform (sendRpc send₂) io T c t = some (r, t') ∧
        ∃ server, t' = s'.withServer server ∧ R s'.server server := by
    intro c s t r s' hst hx h
    obtain ⟨server, rfl, hst⟩ := hst
    obtain ⟨server', hx', hst'⟩ := perform_agrees hR hst hx h
    exact ⟨_, hx', server', rfl, hst'⟩
  obtain ⟨t, hrun, server, rfl, hservers⟩ := Prog.run_agrees (perform (sendRpc send₁) io T)
    (fun c s r s' hx h => perform_backward hL hx h) hstep hrun₁ hend ⟨st₂, rfl, hst⟩
  obtain ⟨hreturned, rfl⟩ := Prod.mk.inj (hrun.symm.trans hrun₂)
  obtain ⟨hret, hstatus, hfileset⟩ := Returned.mk.inj (Option.some.inj hreturned)
  refine ⟨hret.symm, hstatus.symm, hfileset.symm, ?_⟩
  rw [← hserver₁, ← hserver₂]
  exact hservers

/-- A migration with the same answers returns the same. -/
theorem migrate_agrees (hL : ∀ q st, L (send₁ q st).2 → L st)
    (hR : ∀ q st₁ st₂, R st₁ st₂ → L (send₁ q st₁).2 →
      (send₂ q st₂).1 = (send₁ q st₁).1 ∧ R (send₁ q st₁).2 (send₂ q st₂).2)
    (args : MigrateArgs) {st₁ : σ} {st₂ : τ} (hst : R st₁ st₂)
    (hend : L (args.migrate (sendRpc send₁) st₁).server) :
    (args.migrate (sendRpc send₂) st₂).ret = (args.migrate (sendRpc send₁) st₁).ret ∧
      (args.migrate (sendRpc send₂) st₂).status = (args.migrate (sendRpc send₁) st₁).status ∧
      (args.migrate (sendRpc send₂) st₂).fileset = (args.migrate (sendRpc send₁) st₁).fileset ∧
      (args.migrate (sendRpc send₂) st₂).source = (args.migrate (sendRpc send₁) st₁).source ∧
      R (args.migrate (sendRpc send₁) st₁).server (args.migrate (sendRpc send₂) st₂).server := by
  obtain ⟨io, T, ph, fileset, root, removeSource, mode, status⟩ := args
  simp only [MigrateArgs.migrate, remiFilesetMigrate] at hend ⊢
  split
  · rename_i ph fileset root
    dsimp only at hend ⊢
    by_cases hroot : root.head? = some '/'
    · simp only [hroot, ne_eq, not_true_eq_false, ↓reduceIte] at hend ⊢
      -- The server is the one behind the transfer, however the migration ends.
      have hserver : L (transfer (sendRpc send₁) io T ph mode fileset
          (remiFilesetWalkthrough T fileset) (completeRoot root) status st₁).server := by
        split at hend
        · exact hend
        · split at hend
          · exact hend
          · split at hend <;> exact hend
      obtain ⟨hret, hstatus, hfileset, hservers⟩ := transfer_agrees hL hR ph mode fileset
        (remiFilesetWalkthrough T fileset) (completeRoot root) status hst hserver
      rw [hret, hstatus, hfileset]
      split
      · exact ⟨rfl, rfl, rfl, rfl, hservers⟩
      · split
        · exact ⟨rfl, rfl, rfl, rfl, hservers⟩
        · split <;> exact ⟨rfl, rfl, rfl, rfl, hservers⟩
    · rw [if_pos hroot, if_pos hroot]
      exact ⟨rfl, rfl, rfl, rfl, hst⟩
  · exact ⟨rfl, rfl, rfl, rfl, hst⟩

end Agree

/-! ### A provider that has served the requests -/

section Served
variable {abtio : Bool} {env : Env}

theorem providerRpc_eq (env : Env) (abtio : Bool) :
    providerRpc env abtio = sendRpc (env.serve abtio) := by
  simp only [providerRpc, sendRpc, Rpc.mk.injEq]
  refine ⟨?_, ?_, ?_, ?_⟩
  · funext fileset theSizes theModes st
    rcases env.serve abtio (.start fileset theSizes theModes) st with ⟨_ | answer, st'⟩
    · rfl
    · cases answer <;> rfl
  · funext id bulk st
    rcases env.serve abtio (.mmap id bulk) st with ⟨_ | answer, st'⟩
    · rfl
    · cases answer <;> rfl
  · funext id i offset data st
    rcases env.serve abtio (.write id i offset data) st with ⟨_ | answer, st'⟩
    · rfl
    · cases answer <;> rfl
  · funext id st
    rcases env.serve abtio (.end_ id) st with ⟨_ | answer, st'⟩
    · rfl
    · cases answer <;> rfl

/-- A request leaves the answers to those before it. -/
theorem serve_responses (q : Request) (s : Site) {t : Tid} (ht : t ≠ s.tid) :
    (env.serve abtio q s).2.provider.responses t = s.provider.responses t := by
  refine Prog.run_invariant (env.step s.tid)
    (I := fun s' => s'.provider.responses t = s.provider.responses t)
    (fun o s₁ r s₂ hs hx => ?_) (handle abtio q) s.receive (Function.update_of_ne ht _ _)
  obtain ⟨rs, hexec, hx⟩ := Option.map_eq_some_iff.mp hx
  obtain ⟨-, rfl⟩ := Prod.mk.inj hx
  exact (responses_of_ne hexec ht).trans hs

theorem serveAll_served (qs : List Request) (s : Site) :
    (env.serveAll abtio qs s).served = s.served + qs.length := by
  induction qs generalizing s with
  | nil => rfl
  | cons q rest ih =>
      rw [Env.serveAll, ih, List.length_cons]
      show s.served + 1 + rest.length = _
      omega

/-- The answers that have been given stay. -/
theorem serveAll_responses (qs : List Request) (s : Site) {n : Nat} (hn : n < s.served) :
    (env.serveAll abtio qs s).provider.responses ⟨0, n⟩ = s.provider.responses ⟨0, n⟩ := by
  induction qs generalizing s with
  | nil => rfl
  | cons q rest ih =>
      have hne : (⟨0, n⟩ : Tid) ≠ s.tid := fun he => Nat.ne_of_lt hn (Tid.mk.inj he).2
      rw [Env.serveAll, ih _ (Nat.lt_succ_of_lt hn), serve_responses q s hne]

theorem serveAll_append (qs rest : List Request) (s : Site) :
    env.serveAll abtio (qs ++ rest) s = env.serveAll abtio rest (env.serveAll abtio qs s) := by
  induction qs generalizing s with
  | nil => rfl
  | cons q qs ih => exact ih _

/-- A request gets the answer that is there when all requests have been served. -/
theorem serve_answer {sent rest : List Request} {q : Request} {s : Site} (hs : s.served = 0) :
    (env.serve abtio q (env.serveAll abtio sent s)).1 =
      (env.serveAll abtio (sent ++ [q] ++ rest) s).provider.responses ⟨0, sent.length⟩ := by
  have hserved : (env.serveAll abtio sent s).served = sent.length := by
    rw [serveAll_served, hs, Nat.zero_add]
  have hlt : sent.length < (env.serveAll abtio (sent ++ [q]) s).served := by
    rw [serveAll_served, List.length_append, List.length_singleton]
    omega
  rw [serveAll_append, serveAll_responses rest _ hlt, serveAll_snoc, ← hserved]
  rfl

end Served

/-! ### The client -/

section Client
variable {abtio : Bool} {classes : ClassKey → Option MigrationClass} {fs : Fs}
  {targets : Nat → Str → Prop} {m : Nat} {ls : List Step} {P : System}

/-- A client that runs `remi_fileset_migrate` sends the same requests to the provider of its own,
and returns the same. -/
theorem migrate_own {env : Env} {qs : List Request} {s : Provider}
    (hrequests : ∀ n, qs[n]? = (P.thread ⟨m, n⟩).map (·.req))
    (hprovider : (env.serveAll abtio qs (.init classes fs)).provider =
      s.rename (Equiv.swap m 0))
    (hsame : Alike classes (PlaceOf fs.cwd (targets m)) m P.shared s) {args : MigrateArgs}
    (hmigrates : P.Migrates m args) :
    let r := args.migrate (providerRpc env abtio) (.init classes fs)
    r.ret = (P.migrated m args).ret ∧ r.status = (P.migrated m args).status ∧
      r.fileset = (P.migrated m args).fileset ∧ r.source = (P.migrated m args).source ∧
      r.server = env.serveAll abtio qs (.init classes fs) := by
  have hsent : (P.migrated m args).server = qs :=
    List.ext_getElem? fun n => (hmigrates n).trans (hrequests n).symm
  have hend : (P.migrated m args).server <+: qs := by rw [hsent]
  -- What the client has sent so far is the beginning of all its requests.
  have hbackward : ∀ (q : Request) (sent : List Request),
      (scripted (fun n => P.shared.responses ⟨m, n⟩) q sent).2 <+: qs → sent <+: qs :=
    fun q sent hprefix => (List.prefix_append sent [q]).trans hprefix
  have hanswers : ∀ (q : Request) (sent : List Request) (s : Site),
      s = env.serveAll abtio sent (.init classes fs) →
      (scripted (fun n => P.shared.responses ⟨m, n⟩) q sent).2 <+: qs →
      (env.serve abtio q s).1 = (scripted (fun n => P.shared.responses ⟨m, n⟩) q sent).1 ∧
        (env.serve abtio q s).2 = env.serveAll abtio (sent ++ [q]) (.init classes fs) := by
    intro q sent s hs hprefix
    obtain rfl := hs
    obtain ⟨rest, hrest⟩ := hprefix
    have hrest : sent ++ [q] ++ rest = qs := hrest
    refine ⟨?_, (serveAll_snoc env abtio sent q _).symm⟩
    rw [serve_answer rfl, hrest]
    exact hsame.answers hprovider sent.length
  obtain ⟨hret, hstatus, hfileset, hsource, hserver⟩ :=
    migrate_agrees (L := fun sent => sent <+: qs)
      (R := fun sent s => s = env.serveAll abtio sent (.init classes fs))
      hbackward hanswers args (show Site.init classes fs = env.serveAll abtio [] _ from rfl) hend
  rw [← providerRpc_eq] at hret hstatus hfileset hsource hserver
  refine ⟨hret, hstatus, hfileset, hsource, hserver.trans ?_⟩
  show env.serveAll abtio (P.migrated m args).server _ = _
  rw [hsent]

/-- The files of the filesets that have been sent are targets of their clients. -/
theorem sent_targets
    (h : System.Reaches abtio (System.Separated classes targets) (.init classes fs) ls P)
    {t : Tid} {fileset : Fileset} {theSizes theModes : List Nat} {p : Handler Unit}
    (ht : P.thread t = some ⟨.start fileset theSizes theModes, p⟩) :
    ∀ path ∈ fileset.fullNames, targets t.client path := by
  refine h.invariant (I := fun P => ∀ t fileset theSizes theModes p,
    P.thread t = some ⟨.start fileset theSizes theModes, p⟩ →
      ∀ path ∈ fileset.fullNames, targets t.client path) (fun t _ _ _ _ ht => by cases ht) ?_
    t fileset theSizes theModes p ht
  intro P l P' hI hC hn t fileset theSizes theModes p ht
  cases l with
  | spawn t₁ q =>
      obtain ⟨-, rfl⟩ := Pool.next_spawn hn
      rcases thread_update ht with ⟨rfl, rfl, -⟩ | ⟨-, hold⟩
      · exact hC.2.2
      · exact hI t fileset theSizes theModes p hold
  | step t₁ w =>
      obtain ⟨q, o, k, r, s', ht₁, -, rfl⟩ := Pool.next_step hn
      rcases thread_update ht with ⟨rfl, rfl, -⟩ | ⟨-, hold⟩
      · exact hI t fileset theSizes theModes _ ht₁
      · exact hI t fileset theSizes theModes p hold

/-- The first request of a transfer that succeeds is the `migrate_start` for its files. -/
theorem first_request {answers : Nat → Option Response} {io : ClientIo} {T : SourceTree}
    {ph : RemiProviderHandle} {fileset : Fileset} {root : Str} {removeSource mode status : Int}
    (h : (remiFilesetMigrate (sendRpc (scripted answers)) io T (some ph) (some fileset) (some root)
      removeSource mode status []).ret = .success) :
    ∃ theSizes theModes, (remiFilesetMigrate (sendRpc (scripted answers)) io T (some ph)
      (some fileset) (some root) removeSource mode status []).server[0]? =
        some (.start (sentFileset T fileset root) theSizes theModes) := by
  obtain ⟨hroot, hret⟩ := migrate_success h
  obtain ⟨hopens, -⟩ := transfer_started hret
  obtain ⟨rest, hrest, heq⟩ := transfer_opened (sendRpc (scripted answers)) ph mode root status []
    hopens
  refine ⟨(Sources T fileset).map (·.size), (Sources T fileset).map (·.mode), ?_⟩
  rw [(migrate_accepted _ io T ph fileset removeSource mode status [] hroot).2, heq]
  -- The requests behind it are put behind it.
  have happend : ∀ (q q' : Request) (sent : List Request), sent[0]? = some q →
      (sent ++ [q'])[0]? = some q := by
    intro q q' sent hsent
    rw [List.getElem?_append_left (List.getElem?_eq_some_iff.mp hsent).1, hsent]
  refine sendStart_server (I := fun sent : List Request => sent[0]? = some _) rfl
    (hrest.server _ ⟨?_, ?_, ?_⟩)
  · exact fun id bulk sent hsent => happend _ _ sent hsent
  · exact fun id i offset data sent hsent => happend _ _ sent hsent
  · exact fun id sent hsent => happend _ _ sent hsent

end Client

/-- A provider that has what has been sent at every place has a copy when the right data has been
sent. -/
theorem faithful_of_landed {io : ClientIo} {T : SourceTree} {ph : RemiProviderHandle} {mode : Int}
    {fileset : Fileset} {root : Str} {fs fs' : Fs} (hcwd : fs'.cwd = fs.cwd)
    (h : ∀ bs, List.Forall₂ SourceHandle.Shows (Sources T fileset) bs →
      Opens io T fileset ∧ ∀ p ∈ fs.places (sentFileset T fileset root), fs'.node p =
        some (.file (pile mode (dataAt ((fs.places (sentFileset T fileset root)).zip
          (sentBytes io T ph mode fileset bs)) p)))) :
    Faithful T fileset root fs' ↔
      SentRight io T ph mode fileset (fs.places (sentFileset T fileset root)) := by
  have hplaces : fs.places (sentFileset T fileset root) =
      (remiFilesetWalkthrough T fileset).toList.map fun n =>
        fs'.place (completeRoot root ++ n) := by
    simp [Fs.places, Fs.place, hcwd, Fileset.fullNames, sentFileset, Fileset.swapOut]
  -- The copy is faithful when each place has the contents of the file.
  have hcopied : ∀ bs, List.Forall₂ SourceHandle.Shows (Sources T fileset) bs →
      (Faithful T fileset root fs' ↔
        ∀ x ∈ (fs.places (sentFileset T fileset root)).zip bs,
          pile mode (dataAt ((fs.places (sentFileset T fileset root)).zip
            (sentBytes io T ph mode fileset bs)) x.1) = x.2) := by
    intro bs hregular
    obtain ⟨hopens, hnodes⟩ := h bs hregular
    have hnames := names_copied_iff (fun n => fs'.place (completeRoot root ++ n)) fs'
      (names_show hopens hregular)
    rw [← hplaces] at hnames
    refine hnames.trans (forall₂_congr fun x hx => ?_)
    rw [hnodes x.1 (List.of_mem_zip hx).1, Option.some.injEq, Node.file.injEq]
  constructor
  · intro hfaithful
    obtain ⟨bs, hregular⟩ := sources_show fun n hn => by
      obtain ⟨file, b, hfile, hb, -⟩ := hfaithful n hn
      exact ⟨file, b, hfile, hb⟩
    exact ⟨bs, hregular, (hcopied bs hregular).mp hfaithful⟩
  · intro hsent
    obtain ⟨bs, hregular, hpiles⟩ := hsent
    exact (hcopied bs hregular).mpr hpiles

/-- A callback leaves the names of the files as they are. -/
def KeepsNames (callback : Fileset → Int × Fileset) : Prop :=
  ∀ fileset, (callback fileset).2.fullNames = fileset.fullNames

/-- The client with the file of the small tree. -/
def smallArgs : MigrateArgs where
  io := .succeed
  tree := smallTree
  ph := some ⟨true⟩
  fileset := some byteByByte
  remoteRoot := some ['/']
  removeSource := remiKeepSource
  mode := remiUseAbtio
  status := 0

/-- It migrates beside another client, with success. -/
theorem smallArgs_run : ∃ P,
    System.Reaches false (System.Separated acceptAll onlyFile) (.init acceptAll .empty)
        (sideBySide.map agreeing) P ∧
      P.AllOver ∧ P.Migrates 0 smallArgs ∧ (P.migrated 0 smallArgs).ret = .success := by
  obtain ⟨P, hrun, hover, habsent, hlength, hrequests, hret⟩ := sideBySide_run
    (D := fun P => (P.migrated 0 smallArgs).server.length = 4 ∧
      (∀ n : Nat, n < 4 →
        (P.migrated 0 smallArgs).server[n]? = (P.thread ⟨0, n⟩).map (·.req)) ∧
      (P.migrated 0 smallArgs).ret = .success) (by decide +kernel)
  refine ⟨P, hrun, hover, fun n => ?_, hret⟩
  by_cases hn : n < 4
  · exact hrequests n hn
  · have hnone : P.thread ⟨0, n⟩ = none := habsent _ fun hmem => by
      simp [sideBySideTids] at hmem
      omega
    rw [hnone, List.getElem?_eq_none (by omega)]
    rfl

end Remi
